import Splice.Proofs.Body.Positions
import Splice.Proofs.Body.Rejecting
import Splice.Proofs.Rewrite.Conserves
import Splice.Rewrite.Program

/-!
# Where reports come from

Rewriting a program meets the literals of the program and those in what comes out of the groups of
literals that it meets, and nothing else. So whatever it reports, it rejects one of these for.

* `Walk.Reports`: everything that a walk reports has a property.
* `Interpolation.resolves_of_lower`: the values that a literal lowers to are its names and groups.
* `Node.rewrite_reports`: the walk over any tree reports what its literals give rise to.
* `Rewriter.program_reports`: the walk over a program.
-/

namespace Splice

/-! ## The judgement -/

namespace Walk

variable {α β : Type} {P : Diagnostic → Prop}

/-- Everything that the walk reports has a property, also if it fails in the end. -/
def Reports (P : Diagnostic → Prop) (w : Walk α) : Prop := ∀ d ∈ w.log.diagnostics, P d

namespace Reports

theorem nil {w : Walk α} (h : w.log.diagnostics = []) : w.Reports P := by
  rw [Reports, h]
  exact List.forall_mem_nil P

theorem pure (a : α) : (Pure.pure a : Walk α).Reports P := nil rfl

theorem fail (e : Failure) : (Walk.fail e : Walk α).Reports P := nil rfl

theorem bind {x : Walk α} {f : α → Walk β} (hx : x.Reports P) (hf : ∀ a, (f a).Reports P) :
    (x >>= f).Reports P := by
  intro d hd
  cases hresult : x.result with
  | error failure =>
    rw [bind_of_error hresult] at hd
    exact hx d hd
  | ok a =>
    rw [log_bind hresult] at hd
    exact (List.mem_append.1 hd).elim (hx d) (hf a d)

theorem last {x : Walk α} (hx : x.Reports P) (f : α → β) :
    (x >>= fun a => Pure.pure (f a)).Reports P := hx.bind fun a => pure (f a)

theorem mapM {f : α → Walk β} {as : List α} (h : ∀ a ∈ as, (f a).Reports P) :
    (as.mapM f).Reports P := by
  induction as with
  | nil => exact .pure _
  | cons a as ih =>
    obtain ⟨hfirst, hlater⟩ := List.forall_mem_cons.1 h
    rw [List.mapM_cons]
    exact hfirst.bind fun b => (ih hlater).last _

end Reports

end Walk

/-! ## Literals -/

namespace Interpolation

/-- The literal is rejected with a report, in some context. -/
def RejectedWith (r : Rewriter) (i : Interpolation) (d : Diagnostic) : Prop :=
  ∃ context, i.lower context r.parsers r.file = .ok (.error d)

/-- What the literal gives rise to reports nothing without a property. -/
structure Reports (r : Rewriter) (nested : Interpolation → Node → Walk Node)
    (P : Diagnostic → Prop) (i : Interpolation) : Prop where
  rejected : ∀ d, i.RejectedWith r d → P d
  spliced : ∀ context lowering, i.lower context r.parsers r.file = .ok (.ok lowering) →
    AllValues (fun node => (nested i node).Reports P) lowering.args

/-- The values that a literal lowers to are the nodes of its names and groups. -/
theorem resolves_of_lower {i : Interpolation} {context : Context} {file : Option Text}
    {lowering : Lowering} (h : i.lower context .host file = .ok (.ok lowering)) :
    AllValues (fun node => ∃ ins, i.Resolves ins ∧ ins.node = node) lowering.args := by
  obtain ⟨-, hresolved, hargs⟩ := lower_eq_ok.1 h
  obtain ⟨found, hfound, hresolve⟩ := Attempt.run_bind_eq_ok.1 hresolved
  refine (allValues_lowerSegments hargs).mono ?_
  rintro node ⟨ins, hmem, hnode⟩
  obtain ⟨unresolved, hunresolved, hins⟩ := Segment.exists_of_mem_resolve hresolve hmem
  exact ⟨ins, ⟨found, unresolved, Except.ok.inj hfound, hunresolved, hins⟩, hnode⟩

end Interpolation

namespace Rewriter

variable {r : Rewriter} {nested : Interpolation → Node → Walk Node} {P : Diagnostic → Prop}
  {i : Interpolation}

theorem reject_reports (h : i.Reports r nested P) (place : Text) :
    (r.reject i place).Reports P := by
  unfold reject
  rcases hlower : i.lower (.other place) r.parsers r.file with failure | d | lowering
  · exact .fail failure
  · rintro _ hd
    rw [List.mem_singleton.1 hd]
    exact h.rejected d ⟨_, hlower⟩
  · exact .pure ()

theorem splice_reports (h : i.Reports r nested P) (context : Context) :
    (r.splice nested context i).Reports P := by
  unfold splice
  rcases hlower : i.lower context r.parsers r.file with failure | d | lowering
  · exact .fail failure
  · rintro _ hd
    rw [List.mem_singleton.1 hd]
    exact h.rejected d ⟨_, hlower⟩
  · have hnodes : (lowering.args.mapM (argumentNode (nested i) i.loc)).Reports P := by
      refine .mapM fun arg harg => ?_
      cases arg with
      | text t => exact .pure _
      | value role source node => exact h.spliced context lowering hlower role source node harg
    exact hnodes.last _

theorem record_reports (loc : Loc) (node : Node) (lowered : List (List Argument)) :
    (record loc node lowered).Reports P := by
  unfold record
  split
  · exact .nil rfl
  · exact .nil rfl

end Rewriter

/-! ## Trees -/

section Trees

variable {r : Rewriter} {nested : Interpolation → Node → Walk Node} {P : Diagnostic → Prop}

mutual

theorem Node.rewrite_reports : ∀ (n : Node), (∀ i ∈ n.literals, i.Reports r nested P) →
    ∀ place, (n.rewrite r nested place).Reports P
  | .interpolation i, h, place => by
    rw [rewrite]
    exact (Rewriter.reject_reports (h i List.mem_cons_self) place).last _
  | .name .., _, _ | .literal .., _, _ => by
    rw [rewrite]
    exact .pure _
  | .binary loc op left right, h, _ => by
    obtain ⟨hleft, hright⟩ := List.forall_mem_append.1 h
    rw [rewrite]
    refine (left.rewrite_reports hleft _).bind fun left => ?_
    exact (right.rewrite_reports hright _).last _
  | .unary loc op operand, h, _ => by
    rw [rewrite]
    exact (operand.rewrite_reports h _).last _
  | .member loc value ident, h, _ => by
    rw [rewrite]
    exact (value.rewrite_reports h _).last _
  | .index loc value offset, h, _ => by
    obtain ⟨hvalue, hoffset⟩ := List.forall_mem_append.1 h
    rw [rewrite]
    refine (value.rewrite_reports hvalue _).bind fun value => ?_
    exact (offset.rewrite_reports hoffset _).last _
  | .call loc callee args, h, _ => by
    obtain ⟨hcallee, hargs⟩ := List.forall_mem_append.1 h
    rw [rewrite]
    refine (callee.rewrite_reports hcallee _).bind fun callee => ?_
    exact (Node.rewriteArgs_reports args hargs _).bind fun _ => Rewriter.record_reports _ _ _
  | .instantiate loc template args, h, _ => by
    obtain ⟨htemplate, hargs⟩ := List.forall_mem_append.1 h
    rw [rewrite]
    refine (template.rewrite_reports htemplate _).bind fun template => ?_
    exact (Node.rewriteArgs_reports args hargs _).bind fun _ => Rewriter.record_reports _ _ _
  | .mixin loc args, h, _ => by
    rw [rewrite]
    exact (Node.rewriteArgs_reports args h _).bind fun _ => Rewriter.record_reports _ _ _
  | .typeArg loc t, h, _ => by
    rw [rewrite]
    exact (t.rewriteType_reports h).last _
  | .missing, _, _ | .type .., _, _ | .declare .., _, _ | .giveBack .., _, _ | .evaluate .., _, _
  | .block .., _, _ | .function .., _, _ | .param .., _, _ | .program .., _, _ => by
    simp only [rewrite]
    exact .fail _

theorem Node.rewriteArgs_reports : ∀ (args : List Node),
    (∀ i ∈ Node.literalsOf args, i.Reports r nested P) →
      ∀ context, (Node.rewriteArgs r nested context args).Reports P
  | [], _, _ => .pure _
  | a :: rest, h, context => by
    obtain ⟨hfirst, hlater⟩ := List.forall_mem_append.1 h
    have hrest := Node.rewriteArgs_reports rest hlater context
    by_cases ha : ∃ i, a = .interpolation i
    · obtain ⟨i, rfl⟩ := ha
      rw [rewriteArgs]
      exact (Rewriter.splice_reports (hfirst i List.mem_cons_self) _).bind fun _ => hrest.last _
    · rw [rewriteArgs_cons fun i hi => ha ⟨i, hi⟩]
      exact (a.rewrite_reports hfirst _).bind fun _ => hrest.last _

theorem Node.rewriteType_reports : ∀ (t : Node), (∀ i ∈ t.literals, i.Reports r nested P) →
    (t.rewriteType r nested).Reports P
  | .type loc ident isTemplate args size, h => by
    obtain ⟨hargs, hsize⟩ := List.forall_mem_append.1 h
    rw [rewriteType]
    refine (Node.rewriteTypes_reports args hargs).bind fun inner => ?_
    have hlast (args : List Node) : Walk.Reports P (do
        let size ← if size.isMissing then pure size else size.rewrite r nested "array size"
        return Node.type loc ident isTemplate args size) := by
      split
      · exact .pure _
      · exact (size.rewrite_reports hsize _).last _
    cases isTemplate with
    | false => exact hlast inner
    | true =>
      have hargs := Node.rewriteArgs_reports args hargs .templateArgument
      exact hargs.bind fun out => (Rewriter.record_reports _ _ _).bind fun _ => hlast out.1
  | .call _ _ args, h | .instantiate _ _ args, h => by
    obtain ⟨-, hargs⟩ := List.forall_mem_append.1 h
    rw [rewriteType]
    exact (Node.rewriteTypes_reports args hargs).bind fun _ => .fail _
  | .mixin _ args, h => by
    rw [rewriteType]
    exact (Node.rewriteTypes_reports args h).bind fun _ => .fail _
  | .missing, _ | .name .., _ | .literal .., _ | .interpolation _, _ | .unary .., _ | .binary .., _
  | .member .., _ | .index .., _ | .typeArg .., _ | .declare .., _ | .giveBack .., _
  | .evaluate .., _ | .block .., _ | .function .., _ | .param .., _ | .program .., _ => by
    simp only [rewriteType]
    exact .fail _

theorem Node.rewriteTypes_reports : ∀ (ns : List Node),
    (∀ i ∈ Node.literalsOf ns, i.Reports r nested P) → (Node.rewriteTypes r nested ns).Reports P
  | [], _ => .pure _
  | n :: rest, h => by
    obtain ⟨hfirst, hlater⟩ := List.forall_mem_append.1 h
    rw [rewriteTypes]
    have hrest := Node.rewriteTypes_reports rest hlater
    split
    · exact (n.rewriteType_reports hfirst).bind fun node => hrest.last _
    · exact hrest.last _

end

end Trees

/-! ## Programs -/

namespace Rewriter

variable {r : Rewriter}

section Statements

variable {P : Diagnostic → Prop}

theorem optional_reports {f : Node → Walk Node} {n : Node} (h : (f n).Reports P) :
    (optional f n).Reports P := by
  unfold optional
  split
  · exact .pure _
  · exact h

theorem param_reports (p : Node) (h : ∀ i ∈ p.literals, i.Reports r r.nested P) :
    (r.param p).Reports P := by
  unfold param
  split
  · obtain ⟨hdefault, ht⟩ := List.forall_mem_append.1 h
    refine (optional_reports (Node.rewrite_reports _ hdefault _)).bind fun default => ?_
    exact (Node.rewriteType_reports _ ht).last _
  · exact .fail _

theorem params_reports (params : List Node)
    (h : ∀ i ∈ Node.literalsOf params, i.Reports r r.nested P) :
    (params.mapM r.param).Reports P := by
  refine .mapM fun p hp => param_reports p fun i hi => h i ?_
  rw [Node.literalsOf_eq_flatMap]
  exact List.mem_flatMap_of_mem hp hi

mutual

theorem stmt_reports : ∀ (s : Node), (∀ i ∈ s.literals, i.Reports r r.nested P) →
    (r.stmt s).Reports P
  | .declare loc ident t value, h => by
    obtain ⟨ht, hvalue⟩ := List.forall_mem_append.1 h
    rw [stmt]
    refine (optional_reports (t.rewriteType_reports ht)).bind fun t => ?_
    exact (value.rewrite_reports hvalue _).last _
  | .giveBack loc value, h => by
    rw [stmt]
    exact (optional_reports (value.rewrite_reports h _)).last _
  | .evaluate loc value, h => by
    rw [stmt]
    exact (value.rewrite_reports h _).last _
  | .block loc body, h => by
    rw [stmt]
    exact (stmts_reports body h).last _
  | .function loc ident params result body, h => by
    obtain ⟨hfirst, hbody⟩ := List.forall_mem_append.1 h
    obtain ⟨hparams, hresult⟩ := List.forall_mem_append.1 hfirst
    rw [stmt]
    refine (params_reports params hparams).bind fun params => ?_
    refine (optional_reports (result.rewriteType_reports hresult)).bind fun result => ?_
    exact (stmt_reports body hbody).last _
  | .missing, _ | .name .., _ | .literal .., _ | .interpolation _, _ | .unary .., _ | .binary .., _
  | .call .., _ | .member .., _ | .index .., _ | .instantiate .., _ | .mixin .., _ | .typeArg .., _
  | .type .., _ | .param .., _ | .program .., _ => by
    simp only [stmt]
    exact .fail _

theorem stmts_reports : ∀ (body : List Node),
    (∀ i ∈ Node.literalsOf body, i.Reports r r.nested P) → (r.stmts body).Reports P
  | [], _ => .pure _
  | s :: rest, h => by
    obtain ⟨hfirst, hlater⟩ := List.forall_mem_append.1 h
    rw [stmts]
    exact (stmt_reports s hfirst).bind fun s => (stmts_reports rest hlater).last _

end

end Statements

section Programs

variable {source : Text}

/-- A literal that rewriting meets is rejected with the report. -/
def Rejects (r : Rewriter) (source : Text) (d : Diagnostic) : Prop :=
  ∃ i : Interpolation, i.MetIn source ∧ i.RejectedWith r d

/-- What a literal gives rise to that is met, if what comes out of it only meets more of them. -/
theorem reports_of_metIn (hr : r.parsers = .host) {nested : Interpolation → Node → Walk Node}
    {i : Interpolation} (hi : i.MetIn source)
    (hnested : ∀ node : Node, (∀ j ∈ node.literals, j.MetIn source) →
      (nested i node).Reports (r.Rejects source)) :
    i.Reports r nested (r.Rejects source) := by
  refine ⟨fun d hd => ⟨i, hi, hd⟩, fun context lowering hlower => ?_⟩
  rw [hr] at hlower
  refine (Interpolation.resolves_of_lower hlower).mono ?_
  rintro _ ⟨ins, hins, rfl⟩
  exact hnested _ fun j hj => .nested hi hins hj

theorem nestedWithin_reports (hr : r.parsers = .host) (levels : Nat) {n : Node}
    (h : ∀ i ∈ n.literals, i.MetIn source) :
    (r.nestedWithin levels n).Reports (r.Rejects source) := by
  induction levels generalizing n with
  | zero => exact .fail _
  | succ levels ih =>
    exact n.rewrite_reports (fun i hi => reports_of_metIn hr (h i hi) fun _ => ih) _

/-- Whatever rewriting a program reports, it rejects a literal for that it meets. -/
theorem program_reports (hr : r.parsers = .host) {p : Program}
    (hp : parseProgram source = .ok p) : (r.program p).Reports (r.Rejects source) :=
  stmts_reports p fun _ hi => reports_of_metIn hr (.written hp hi) fun _ =>
    nestedWithin_reports hr _

end Programs

end Rewriter

end Splice
