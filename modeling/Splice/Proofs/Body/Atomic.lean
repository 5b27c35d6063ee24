import Splice.Proofs.Body.Lowering
import Splice.Proofs.Body.Rejecting
import Splice.Proofs.Syntax.Nodes

/-!
# Literals with any parsers

Parsers that answer every text decide about a body once and for all. If it is rejected, then the
report is the same in every context. If it is resolved, then every context that admits the literal
gives the same arguments, and every other one reports the whole literal.

* `FragmentParsers.Answer`: parsers that answer every text.
* `Attempt.Returns`: an attempt that does not fail.
* `Interpolation.resolved_returns`: what has been resolved has an argument list.
* `Interpolation.lower_of_answer`: a literal in all contexts at once.
-/

namespace Splice

/-- The answer of a parser to a text. It has a node unless it has an error. -/
def FragmentParse.IsAnswer (x : Except Failure FragmentParse) : Prop :=
  ∃ p, x = .ok p ∧ (p.error = none → p.node ≠ .missing)

/-- Both parsers answer every text. -/
structure FragmentParsers.Answer (parsers : FragmentParsers) : Prop where
  type (text : Text) : FragmentParse.IsAnswer (parsers.type text)
  expr (text : Text) : FragmentParse.IsAnswer (parsers.expr text)

/-- Parsers that take every text for a name. -/
def FragmentParsers.names : FragmentParsers where
  type text := .ok { node := .namedType .start text, consumed := text.length }
  expr text := .ok { node := .name .start text, consumed := text.length }

theorem FragmentParsers.Answer.names : FragmentParsers.names.Answer :=
  ⟨fun _ => ⟨_, rfl, nofun⟩, fun _ => ⟨_, rfl, nofun⟩⟩

theorem FragmentParse.error_of_covers {p : FragmentParse} {text : Text}
    (h : p.covers text = true) : p.error = none := by
  rw [covers, Bool.and_eq_true] at h
  exact Option.isNone_iff_eq_none.1 h.1

namespace Attempt

variable {α β : Type} {P : α → Prop} {R : β → Prop}

/-- The attempt does not fail. What it returns, unless it is rejected, has a property. -/
def Returns (P : α → Prop) (x : Attempt α) : Prop :=
  ∃ result, x.run = .ok result ∧ ∀ a, result = .ok a → P a

theorem Returns.pure {a : α} (h : P a) : Returns P (Pure.pure a : Attempt α) :=
  ⟨.ok a, rfl, by rintro _ ⟨⟩; exact h⟩

theorem Returns.reject (r : Rejection) : Returns P (Attempt.reject r) := ⟨.error r, rfl, nofun⟩

theorem Returns.ofRejecting {x : Except Rejection α} (h : ∀ a, x = .ok a → P a) :
    Returns P (Attempt.ofRejecting x) := ⟨x, rfl, h⟩

theorem Returns.bind_ofFailing {x : Except Failure α} {a : α} {f : α → Attempt β}
    (hx : x = .ok a) (hf : Returns R (f a)) : Returns R (Attempt.ofFailing x >>= f) := by
  subst hx
  exact hf

theorem Returns.bind {x : Attempt α} {f : α → Attempt β} (hx : Returns P x)
    (hf : ∀ a, P a → Returns R (f a)) : Returns R (x >>= f) := by
  obtain ⟨result, hrun, hresult⟩ := hx
  cases result with
  | error r => exact ⟨.error r, by rw [ExceptT.run_bind, hrun]; rfl, nofun⟩
  | ok a =>
    obtain ⟨result', hrun', hresult'⟩ := hf a (hresult a rfl)
    exact ⟨result', by rw [ExceptT.run_bind, hrun]; exact hrun', hresult'⟩

end Attempt

/-! ## Resolving -/

section Resolve

variable {parsers : FragmentParsers}

/-- A group with a role has a node, for only an answer without an error covers a text. -/
theorem Insertion.resolveGroup_returns (hparsers : parsers.Answer) (locate : Option Locate)
    (raw : Text) (start stop : Nat) : (resolveGroup parsers locate raw start stop).Returns
      fun ins => ins.Resolved fun _ => True := by
  obtain ⟨asType, htype, -⟩ := hparsers.type raw
  obtain ⟨asExpr, hexpr, hnode⟩ := hparsers.expr raw
  refine .bind_ofFailing htype (.bind_ofFailing hexpr ?_)
  split
  next =>
    refine .pure ⟨.type, raw, ?_, trivial⟩
    cases locate <;> rfl
  next =>
    split
    next hcovers =>
      have hpresent : (exprNode raw start locate asExpr.node).isMissing = false := by
        have hmissing : asExpr.node.isMissing = false := Bool.eq_false_iff.2 fun hmissing =>
          hnode (FragmentParse.error_of_covers hcovers) (Node.isMissing_iff.1 hmissing)
        cases locate with
        | none => exact hmissing
        | some locate => rw [exprNode, Node.isMissing_mapLoc, hmissing]
      refine .pure ⟨.expression, raw, if_neg ?_, trivial⟩
      rw [hpresent]
      decide
    next => exact .reject _

theorem Insertion.resolve_returns (hparsers : parsers.Answer) (locate : Option Locate)
    (ins : Insertion) : (ins.resolve parsers locate).Returns
      fun ins => ins.Resolved fun _ => True := by
  cases ins with
  | name ident start stop => exact .pure ⟨.expression, ident, rfl, trivial⟩
  | group raw start stop => exact resolveGroup_returns hparsers locate raw start stop

theorem Segment.resolve_returns (hparsers : parsers.Answer) (locate : Option Locate)
    (found : List Segment) : (resolve parsers locate found).Returns
      fun segments => ∀ ins, .insertion ins ∈ segments → ins.Resolved fun _ => True := by
  induction found with
  | nil => exact .pure nofun
  | cons segment rest ih =>
    cases segment with
    | insertion ins =>
      refine (Insertion.resolve_returns hparsers locate ins).bind fun ins hins => ?_
      refine ih.bind fun later hlater => .pure fun ins' hmem => ?_
      rcases List.mem_cons.1 hmem with heq | hmem
      · cases heq
        exact hins
      · exact hlater ins' hmem
    | text | dollar =>
      refine ih.bind fun later hlater => .pure fun ins hmem => hlater ins ?_
      exact (List.mem_cons.1 hmem).resolve_left nofun

end Resolve

/-! ## All contexts at once -/

namespace Interpolation

variable {parsers : FragmentParsers}

theorem resolved_returns (hparsers : parsers.Answer) (i : Interpolation) :
    (i.resolved parsers).Returns
      fun segments => ∃ args, lowerSegments segments i.kind = .ok args := by
  refine Attempt.Returns.bind (P := fun _ => True) (.ofRejecting fun _ _ => trivial) ?_
  intro found _
  obtain ⟨result, hrun, hresult⟩ := Segment.resolve_returns hparsers (some i.locate) found
  refine ⟨result, hrun, fun segments hsegments => ?_⟩
  obtain ⟨args, hargs, -⟩ := lowerSegments_eq_ok (hresult segments hsegments) i.kind
  exact ⟨args, hargs⟩

variable {i : Interpolation} {context : Context} {segments : List Segment}
  {file : Option Text}

theorem lower_of_resolved_error {r : Rejection} (h : (i.resolved parsers).run = .ok (.error r)) :
    i.lower context parsers file = .ok (.error (i.diagnostic file r)) :=
  lower_eq_error.2 ⟨r, by rw [attempt_eq, ExceptT.run_bind, h]; rfl, rfl⟩

theorem attempt_of_resolved (h : (i.resolved parsers).run = .ok (.ok segments)) :
    (i.attempt context parsers).run = (i.admitted context segments).run := by
  rw [attempt_eq, ExceptT.run_bind, h]
  rfl

theorem lower_of_admits {args : List Argument}
    (h : (i.resolved parsers).run = .ok (.ok segments)) (hadmits : context.admits i.kind = true)
    (hargs : lowerSegments segments i.kind = .ok args) :
    i.lower context parsers file = .ok (.ok { segments, args }) := by
  rw [lower, attempt_of_resolved h, admitted, Context.check, if_pos hadmits, hargs]
  rfl

theorem lower_of_not_admits (h : (i.resolved parsers).run = .ok (.ok segments))
    (hadmits : context.admits i.kind = false) : i.lower context parsers file =
      .ok (.error (i.diagnostic file { cause := context.refusal i.kind })) := by
  rw [lower, attempt_of_resolved h, admitted_of_not_admits hadmits]
  rfl

/-- With parsers that answer every text, a literal is rejected for its body, in the same way in
every context, or it has arguments, the same in every context that admits it. In the other contexts
it is reported as a whole. -/
theorem lower_of_answer (hparsers : parsers.Answer) (i : Interpolation) (file : Option Text) :
    (∃ r, (i.resolved parsers).run = .ok (.error r) ∧
      (i.diagnostic file r).code ≠ some Fault.illegalContext.code ∧
      ∀ context, i.lower context parsers file = .ok (.error (i.diagnostic file r))) ∨
    ∃ lowering : Lowering, (i.resolved parsers).run = .ok (.ok lowering.segments) ∧
      ∀ context : Context,
        (context.admits i.kind = true → i.lower context parsers file = .ok (.ok lowering)) ∧
        (context.admits i.kind = false → ∃ d, i.lower context parsers file = .ok (.error d) ∧
          d.code = some Fault.illegalContext.code ∧ d.span = .between file i.loc i.stop) := by
  obtain ⟨result, hrun, hresult⟩ := resolved_returns hparsers i
  cases result with
  | error r =>
    refine .inl ⟨r, hrun, fun hcode => ?_, fun context => lower_of_resolved_error hrun⟩
    exact (i.resolved_rejects parsers r hrun).fault (Fault.code_inj (Option.some.inj hcode))
  | ok segments =>
    obtain ⟨args, hargs⟩ := hresult segments rfl
    refine .inr ⟨⟨segments, args⟩, hrun, fun context => ⟨fun hadmits => ?_, fun hadmits => ?_⟩⟩
    · exact lower_of_admits hrun hadmits hargs
    · refine ⟨_, lower_of_not_admits hrun hadmits, ?_, rfl⟩
      cases context <;> rfl

/-- A format string with a group, where it can stand and where it cannot. -/
theorem lower_of_answer_names :
    let parsers : FragmentParsers := .names
    let i : Interpolation := ⟨.start, .formatted, .verbatim ['$', '(', 'x', ')'] ⟨1, 3⟩⟩
    parsers.Answer ∧ ∃ lowering : Lowering,
      i.lower .callArgument parsers none = .ok (.ok lowering) ∧
      i.lower .templateArgument parsers none = .ok (.ok lowering) ∧
      ∃ d, i.lower .mixinArgument parsers none = .ok (.error d) ∧
        d.code = some Fault.illegalContext.code ∧ d.span = .between none i.loc i.stop := by
  intro parsers i
  refine ⟨.names, ?_⟩
  obtain ⟨r, hr, -⟩ | ⟨lowering, -, hlower⟩ := lower_of_answer .names i none
  · cases hr
  · exact ⟨lowering, (hlower _).1 rfl, (hlower _).1 rfl, (hlower _).2 rfl⟩

end Interpolation

end Splice
