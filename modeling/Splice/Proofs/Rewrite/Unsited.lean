import Splice.Proofs.Rewrite.Again
import Splice.Rewrite.Program

/-!
# Walks that record no site

Only what comes out of a literal can be a whole group, and a literal is lowered at a site. So a
rewriting without a site reports no literal as a whole group, whatever tree it goes over.

* `Walk.Groupless`: a walk without sites reports no whole group.
* `Node.rewrite_groupless`: the walk over any tree.
* `Rewriter.program_groupless`: the walk over any program.
-/

namespace Splice

/-! ## The judgement -/

namespace Walk

variable {α β : Type} {P : α → Prop} {R : β → Prop}

/-- If the walk records no site and its result has a property, it reports no literal as a whole
group. -/
def Groupless (P : α → Prop) (w : Walk α) : Prop :=
  ∀ a, w.result = .ok a → w.log.sites = [] → P a →
    ∀ d ∈ w.log.diagnostics, d.isWholeGroup = false

namespace Groupless

theorem nil {w : Walk α} (h : w.log.diagnostics = []) : w.Groupless P := by
  intro a ha hsites hP
  rw [h]
  exact List.forall_mem_nil _

theorem pure (a : α) : (Pure.pure a : Walk α).Groupless P := nil rfl

theorem fail (e : Failure) : (Walk.fail e : Walk α).Groupless P := nil rfl

/-- The result of the first step has its property if the walk goes on without a site. -/
theorem bind {x : Walk α} {f : α → Walk β} (hx : x.Groupless P) (hf : ∀ a, (f a).Groupless R)
    (hP : ∀ a b, (f a).result = .ok b → (f a).log.sites = [] → R b → P a) :
    (x >>= f).Groupless R := by
  intro b hb hsites hR d hd
  obtain ⟨a, hresult, hb⟩ := exists_of_result_bind hb
  rw [log_bind hresult] at hsites hd
  obtain ⟨hfirst, hlast⟩ := List.append_eq_nil_iff.1 hsites
  rcases List.mem_append.1 hd with hd | hd
  · exact hx a hresult hfirst (hP a b hb hlast hR) d hd
  · exact hf a b hb hlast hR d hd

theorem seq {x : Walk α} {f : α → Walk β} (hx : x.Groupless fun _ => True)
    (hf : ∀ a, (f a).Groupless R) : (x >>= f).Groupless R :=
  hx.bind hf fun _ _ _ _ _ => trivial

theorem last {x : Walk α} (hx : x.Groupless fun _ => True) (f : α → β) :
    (x >>= fun a => Pure.pure (f a)).Groupless R := hx.seq fun a => pure (f a)

end Groupless

end Walk

/-! ## Literals -/

theorem Context.describe_other_ne {place : Text} (h : place ≠ "interpolation group") :
    (Context.other place).describe ≠ "interpolation group" := by
  rw [Context.describe]
  split
  · decide
  · exact h

theorem Diagnostic.isWholeGroup_of_code {d : Diagnostic}
    (h : d.code ≠ some Fault.illegalContext.code) : d.isWholeGroup = false := by
  rw [isWholeGroup, beq_eq_false_iff_ne.2 h, Bool.false_and]

namespace Rewriter

variable {r : Rewriter}

theorem reject_groupless (i : Interpolation) {place : Text}
    (hplace : place ≠ "interpolation group") :
    (r.reject i place).Groupless fun _ => True := by
  intro _ h _ _ d hd
  unfold reject at h hd
  cases hlower : i.lower (.other place) r.parsers r.file with
  | error failure => rw [hlower] at h; cases h
  | ok result =>
    rw [hlower] at hd
    cases result with
    | ok lowering => cases hd
    | error d' =>
      obtain rfl := List.mem_singleton.1 hd
      obtain ⟨-, rfl⟩ | ⟨hcode, -⟩ := Interpolation.lower_rejected hlower
      · rw [Bool.eq_false_iff]
        exact fun hgroup => Context.describe_other_ne hplace
          ((i.isWholeGroup_misplaced r.file _).1 hgroup)
      · exact Diagnostic.isWholeGroup_of_code hcode

theorem isWholeGroup_formattedMixin (i : Interpolation) (file : Option Text) :
    (i.diagnostic file { cause := .formattedMixin }).isWholeGroup = false := by
  have hmessage (kind : InterpolationKind) :
      Fault.illegalContext.message Cause.formattedMixin.message ≠
        Fault.illegalContext.message (Cause.misplaced kind "interpolation group").message := by
    cases kind <;> decide +kernel
  rw [Diagnostic.isWholeGroup, Bool.and_eq_false_iff, List.any_eq_false]
  exact .inr fun kind _ h => hmessage kind (eq_of_beq h)

/-- A literal that is not lowered in an argument list is not reported as a whole group. -/
theorem splice_groupless (nested : Interpolation → Node → Walk Node) {context : Context}
    (hcontext : context.admits .interspersed = true) (i : Interpolation) :
    (r.splice nested context i).Groupless fun out => out.2 = [] := by
  intro out hout _ hnone d hd
  unfold splice at hout hd
  cases hlower : i.lower context r.parsers r.file with
  | error failure => rw [hlower] at hout; cases hout
  | ok result =>
    rw [hlower] at hout hd
    cases result with
    | ok lowering =>
      change (lowering.args.mapM (argumentNode (nested i) i.loc) >>= fun nodes =>
        pure (nodes, [lowering.args])).result = .ok out at hout
      obtain ⟨nodes, -, hlast⟩ := Walk.exists_of_result_bind hout
      cases hlast
      cases hnone
    | error d' =>
      obtain rfl := List.mem_singleton.1 hd
      obtain ⟨hadmits, rfl⟩ | ⟨hcode, -⟩ := Interpolation.lower_rejected hlower
      · cases context with
        | callArgument | templateArgument => cases hadmits
        | mixinArgument => exact isWholeGroup_formattedMixin i r.file
        | other => cases hcontext
      · exact Diagnostic.isWholeGroup_of_code hcode

theorem record_groupless (loc : Loc) (node : Node) (lowered : List (List Argument)) :
    (record loc node lowered).Groupless fun _ => True := by
  unfold record
  split
  · exact .nil rfl
  · exact .nil rfl

theorem eq_nil_of_record {loc : Loc} {node : Node} {lowered : List (List Argument)}
    (h : (record loc node lowered).log.sites = []) : lowered = [] := by
  unfold record at h
  split at h
  · next hempty => exact List.isEmpty_iff.1 hempty
  · cases h

theorem eq_nil_of_record_bind {loc : Loc} {node : Node} {lowered : List (List Argument)}
    {α : Type} {f : Node → Walk α} (h : (record loc node lowered >>= f).log.sites = []) :
    lowered = [] := by
  by_contra hne
  have hrecord : (record loc node lowered).result = .ok node := by
    rw [record, if_neg (by rwa [List.isEmpty_iff])]
    rfl
  rw [Walk.log_bind hrecord] at h
  exact hne (eq_nil_of_record (List.append_eq_nil_iff.1 h).1)

/-- The node with an argument list, after the list. -/
theorem record_last {x : Walk (List Node × List (List Argument))}
    (hx : x.Groupless fun out => out.2 = []) (loc : Loc) (f : List Node → Node) :
    (x >>= fun out => record loc (f out.1) out.2).Groupless fun _ => True :=
  hx.bind (fun out => record_groupless loc (f out.1) out.2) fun _ _ _ h _ => eq_nil_of_record h

end Rewriter

/-! ## Trees -/

section Trees

variable {r : Rewriter} {nested : Interpolation → Node → Walk Node}

theorem operand_ne (op : Text) :
    "operand of '" ++ op ++ "'" ≠ ("interpolation group" : Text) := by
  intro h
  have hfirst := congrArg List.head? h
  have hoperand : ("operand of '" : Text).head? = some ↑ 'o' := by decide
  rw [List.append_assoc, List.head?_append, hoperand, Option.some_or] at hfirst
  exact absurd hfirst (by decide)

mutual

theorem Node.rewrite_groupless : ∀ (n : Node) {place : Text}, place ≠ "interpolation group" →
    (n.rewrite r nested place).Groupless fun _ => True
  | .interpolation i, _, hplace => by
    rw [rewrite]
    exact (Rewriter.reject_groupless i hplace).last _
  | .name .., _, _ | .literal .., _, _ => by
    rw [rewrite]
    exact .pure _
  | .binary loc op left right, _, _ => by
    rw [rewrite]
    -- The place of an operand is named after its operator, so it is not the name of a group.
    refine (left.rewrite_groupless (operand_ne _)).seq fun left => ?_
    exact (right.rewrite_groupless (operand_ne _)).last _
  | .unary loc op operand, _, _ => by
    rw [rewrite]
    exact (operand.rewrite_groupless (operand_ne _)).last _
  | .member loc value ident, _, _ => by
    rw [rewrite]
    exact (value.rewrite_groupless (by decide)).last _
  | .index loc value offset, _, _ => by
    rw [rewrite]
    refine (value.rewrite_groupless (by decide)).seq fun value => ?_
    exact (offset.rewrite_groupless (by decide)).last _
  | .call loc callee args, _, _ => by
    rw [rewrite]
    refine (callee.rewrite_groupless (by decide)).seq fun callee => ?_
    exact Rewriter.record_last (Node.rewriteArgs_groupless args rfl) loc (.call loc callee)
  | .instantiate loc template args, _, _ => by
    rw [rewrite]
    refine (template.rewrite_groupless (by decide)).seq fun template => ?_
    exact Rewriter.record_last (Node.rewriteArgs_groupless args rfl) loc
      (.instantiate loc template)
  | .mixin loc args, _, _ => by
    rw [rewrite]
    exact Rewriter.record_last (Node.rewriteArgs_groupless args rfl) loc (.mixin loc)
  | .typeArg loc t, _, _ => by
    rw [rewrite]
    exact t.rewriteType_groupless.last _
  | .missing, _, _ | .type .., _, _ | .declare .., _, _ | .giveBack .., _, _ | .evaluate .., _, _
  | .block .., _, _ | .function .., _, _ | .param .., _, _ | .program .., _, _ => by
    simp only [rewrite]
    exact .fail _

theorem Node.rewriteArgs_groupless : ∀ (args : List Node) {context : Context},
    context.admits .interspersed = true →
      (Node.rewriteArgs r nested context args).Groupless fun out => out.2 = []
  | [], _, _ => .pure _
  | a :: rest, context, hcontext => by
    have hrest := Node.rewriteArgs_groupless rest hcontext
    by_cases ha : ∃ i, a = .interpolation i
    · obtain ⟨i, rfl⟩ := ha
      rw [rewriteArgs]
      refine (Rewriter.splice_groupless nested hcontext i).bind
        (fun out => hrest.bind (fun _ => .pure _) ?_) ?_
      · rintro out' _ ⟨⟩ - h
        exact (List.append_eq_nil_iff.1 h).2
      · rintro out b hb - h
        obtain ⟨out', -, hlast⟩ := Walk.exists_of_result_bind hb
        cases hlast
        exact (List.append_eq_nil_iff.1 h).1
    · rw [rewriteArgs_cons fun i hi => ha ⟨i, hi⟩]
      refine (a.rewrite_groupless ?_).seq fun node => hrest.bind (fun _ => .pure _) ?_
      · cases context <;> first | decide | cases hcontext
      · rintro out' _ ⟨⟩ - h
        exact h

theorem Node.rewriteType_groupless : ∀ (t : Node),
    (t.rewriteType r nested).Groupless fun _ => True
  | .type loc ident isTemplate args size => by
    rw [rewriteType]
    refine (Node.rewriteTypes_groupless args).seq fun inner => ?_
    have hsize (args : List Node) : Walk.Groupless (fun _ => True) (do
        let size ← if size.isMissing then pure size else size.rewrite r nested "array size"
        return Node.type loc ident isTemplate args size) := by
      split
      · exact .pure _
      · exact (size.rewrite_groupless (by decide)).last _
    cases isTemplate with
    | false => exact hsize inner
    | true =>
      have hargs : (Node.rewriteArgs r nested .templateArgument args).Groupless
          fun out => out.2 = [] := Node.rewriteArgs_groupless args rfl
      refine hargs.bind (fun out => ?_) fun out t _ hsites _ => ?_
      · exact (Rewriter.record_groupless _ _ _).seq fun _ => hsize out.1
      · exact Rewriter.eq_nil_of_record_bind hsites
  | .call _ _ args | .instantiate _ _ args | .mixin _ args => by
    rw [rewriteType]
    exact (Node.rewriteTypes_groupless args).seq fun _ => .fail _
  | .missing | .name .. | .literal .. | .interpolation _ | .unary .. | .binary ..
  | .member .. | .index .. | .typeArg .. | .declare .. | .giveBack ..
  | .evaluate .. | .block .. | .function .. | .param .. | .program .. => by
    simp only [rewriteType]
    exact .fail _

theorem Node.rewriteTypes_groupless : ∀ (ns : List Node),
    (Node.rewriteTypes r nested ns).Groupless fun _ => True
  | [] => .pure _
  | n :: rest => by
    rw [rewriteTypes]
    have hrest := Node.rewriteTypes_groupless rest
    split
    · exact n.rewriteType_groupless.seq fun node => hrest.last _
    · exact hrest.last _

end

end Trees

/-! ## Programs -/

namespace Rewriter

variable {r : Rewriter}

theorem optional_groupless {f : Node → Walk Node} {n : Node}
    (h : (f n).Groupless fun _ => True) : (optional f n).Groupless fun _ => True := by
  unfold optional
  split
  · exact .pure _
  · exact h

theorem param_groupless (p : Node) : (r.param p).Groupless fun _ => True := by
  unfold param
  split
  · refine (optional_groupless (Node.rewrite_groupless _ (by decide))).seq fun default => ?_
    exact (Node.rewriteType_groupless _).last _
  · exact .fail _

theorem params_groupless (params : List Node) :
    (params.mapM r.param).Groupless fun _ => True := by
  induction params with
  | nil => exact .pure _
  | cons p params ih =>
    rw [List.mapM_cons]
    exact (param_groupless p).seq fun p => ih.last _

mutual

theorem stmt_groupless : ∀ (s : Node), (r.stmt s).Groupless fun _ => True
  | .declare loc ident t value => by
    rw [stmt]
    refine (optional_groupless t.rewriteType_groupless).seq fun t => ?_
    exact (value.rewrite_groupless (by decide)).last _
  | .giveBack loc value => by
    rw [stmt]
    exact (optional_groupless (value.rewrite_groupless (by decide))).last _
  | .evaluate loc value => by
    rw [stmt]
    exact (value.rewrite_groupless (by decide)).last _
  | .block loc body => by
    rw [stmt]
    exact (stmts_groupless body).last _
  | .function loc ident params result body => by
    rw [stmt]
    refine (params_groupless params).seq fun params => ?_
    refine (optional_groupless result.rewriteType_groupless).seq fun result => ?_
    exact (stmt_groupless body).last _
  | .missing | .name .. | .literal .. | .interpolation _ | .unary .. | .binary .. | .call ..
  | .member .. | .index .. | .instantiate .. | .mixin .. | .typeArg .. | .type .. | .param ..
  | .program .. => by
    simp only [stmt]
    exact .fail _

theorem stmts_groupless : ∀ (body : List Node), (r.stmts body).Groupless fun _ => True
  | [] => .pure _
  | s :: rest => by
    rw [stmts]
    exact (stmt_groupless s).seq fun s => (stmts_groupless rest).last _

end

/-- A rewriting that records no site reports no literal as a whole group. -/
theorem program_groupless (p : Program) : (r.program p).Groupless fun _ => True :=
  stmts_groupless p

end Rewriter

end Splice
