import Splice.Proofs.Body.Lowering
import Splice.Proofs.Rewrite.Conserves
import Splice.Rewrite.Program

/-!
# Rewriting is the same at every depth

What comes out of a group is rewritten with a bound on how deep literals are nested in it. As long
as the bound is not reached, it does not matter: a node out of a group is rewritten as it would be
in a program.

* `Node.rewrite_congr`: rewriting depends on what becomes of the literals of the tree only.
* `Rewriter.nestedWithin_eq`: bounds that are high enough make no difference.
* `Rewriter.nested_eq_expr`: so there is none between groups and programs.
-/

namespace Splice

section Congruence

variable {r : Rewriter} {nested nested' : Interpolation → Node → Walk Node}

/-- The literal becomes the same in every argument list. -/
def Interpolation.SplicesAlike (r : Rewriter) (nested nested' : Interpolation → Node → Walk Node)
    (i : Interpolation) : Prop :=
  ∀ context, r.splice nested context i = r.splice nested' context i

mutual

/-- Rewriting depends on what becomes of the literals of the tree only. -/
theorem Node.rewrite_congr : ∀ (n : Node),
    (∀ i ∈ n.literals, i.SplicesAlike r nested nested') →
      ∀ place, n.rewrite r nested place = n.rewrite r nested' place
  | .interpolation i, _, place => by rw [rewrite, rewrite]
  | .name .., _, _ | .literal .., _, _ => by simp only [rewrite]
  | .binary loc op left right, h, place => by
    obtain ⟨hleft, hright⟩ := List.forall_mem_append.1 h
    rw [rewrite, rewrite, left.rewrite_congr hleft]
    simp only [right.rewrite_congr hright]
  | .unary loc op operand, h, place => by
    rw [rewrite, rewrite, operand.rewrite_congr h]
  | .member loc value ident, h, place => by
    rw [rewrite, rewrite, value.rewrite_congr h]
  | .index loc value offset, h, place => by
    obtain ⟨hvalue, hoffset⟩ := List.forall_mem_append.1 h
    rw [rewrite, rewrite, value.rewrite_congr hvalue]
    simp only [offset.rewrite_congr hoffset]
  | .call loc callee args, h, place => by
    obtain ⟨hcallee, hargs⟩ := List.forall_mem_append.1 h
    rw [rewrite, rewrite, callee.rewrite_congr hcallee]
    simp only [Node.rewriteArgs_congr args hargs]
  | .instantiate loc template args, h, place => by
    obtain ⟨htemplate, hargs⟩ := List.forall_mem_append.1 h
    rw [rewrite, rewrite, template.rewrite_congr htemplate]
    simp only [Node.rewriteArgs_congr args hargs]
  | .mixin loc args, h, place => by
    rw [rewrite, rewrite, Node.rewriteArgs_congr args h]
  | .typeArg loc t, h, place => by
    rw [rewrite, rewrite, t.rewriteType_congr h]
  | .missing, _, _ | .type .., _, _ | .declare .., _, _ | .giveBack .., _, _ | .evaluate .., _, _
  | .block .., _, _ | .function .., _, _ | .param .., _, _ | .program .., _, _ => by
    simp only [rewrite]

theorem Node.rewriteArgs_congr : ∀ (args : List Node),
    (∀ i ∈ Node.literalsOf args, i.SplicesAlike r nested nested') →
      ∀ context, Node.rewriteArgs r nested context args = Node.rewriteArgs r nested' context args
  | [], _, _ => rfl
  | a :: rest, h, context => by
    obtain ⟨hfirst, hlater⟩ := List.forall_mem_append.1 h
    have hlater := Node.rewriteArgs_congr rest hlater context
    by_cases ha : ∃ i, a = .interpolation i
    · obtain ⟨i, rfl⟩ := ha
      rw [rewriteArgs, rewriteArgs, hfirst i List.mem_cons_self]
      simp only [hlater]
    · rw [rewriteArgs_cons fun i hi => ha ⟨i, hi⟩, rewriteArgs_cons fun i hi => ha ⟨i, hi⟩,
        a.rewrite_congr hfirst]
      simp only [hlater]

theorem Node.rewriteType_congr : ∀ (t : Node),
    (∀ i ∈ t.literals, i.SplicesAlike r nested nested') →
      t.rewriteType r nested = t.rewriteType r nested'
  | .type loc ident isTemplate args size, h => by
    obtain ⟨hargs, hsize⟩ := List.forall_mem_append.1 h
    rw [rewriteType, rewriteType, Node.rewriteTypes_congr args hargs]
    simp only [Node.rewriteArgs_congr args hargs, size.rewrite_congr hsize]
  | .call _ _ args, h => by
    obtain ⟨-, hargs⟩ := List.forall_mem_append.1 h
    rw [rewriteType, rewriteType, Node.rewriteTypes_congr args hargs]
  | .instantiate _ _ args, h => by
    obtain ⟨-, hargs⟩ := List.forall_mem_append.1 h
    rw [rewriteType, rewriteType, Node.rewriteTypes_congr args hargs]
  | .mixin _ args, h => by
    rw [rewriteType, rewriteType, Node.rewriteTypes_congr args h]
  | .missing, _ | .name .., _ | .literal .., _ | .interpolation _, _ | .unary .., _ | .binary .., _
  | .member .., _ | .index .., _ | .typeArg .., _ | .declare .., _ | .giveBack .., _
  | .evaluate .., _ | .block .., _ | .function .., _ | .param .., _ | .program .., _ => by
    simp only [rewriteType]

theorem Node.rewriteTypes_congr : ∀ (ns : List Node),
    (∀ i ∈ Node.literalsOf ns, i.SplicesAlike r nested nested') →
      Node.rewriteTypes r nested ns = Node.rewriteTypes r nested' ns
  | [], _ => rfl
  | n :: rest, h => by
    obtain ⟨hfirst, hlater⟩ := List.forall_mem_append.1 h
    rw [rewriteTypes, rewriteTypes, n.rewriteType_congr hfirst, Node.rewriteTypes_congr rest hlater]

end

end Congruence

/-- The literals of what comes out of a literal have its property. -/
theorem IsInserted.of_mem_literals {Q : Interpolation → Prop} {n : Node} (h : IsInserted Q n) :
    ∀ i ∈ n.literals, Q i := by
  cases h with
  | name => nofun
  | expr h => exact h.of_mem_literals
  | type loc h => exact h.of_mem_literals

theorem Walk.mapM_congr {α β : Type} {f g : α → Walk β} {as : List α} (h : ∀ a ∈ as, f a = g a) :
    as.mapM f = as.mapM g := by
  induction as with
  | nil => rfl
  | cons a as ih =>
    obtain ⟨hfirst, hlater⟩ := List.forall_mem_cons.1 h
    rw [List.mapM_cons, List.mapM_cons, hfirst, ih hlater]

namespace Rewriter

variable {r : Rewriter}

/-- A literal becomes the same if the nodes out of its groups do. -/
theorem splicesAlike (hr : r.parsers = .host) {nested nested' : Interpolation → Node → Walk Node}
    {i : Interpolation} (hi : i.Ordered)
    (h : ∀ node, i.Inserts node → nested i node = nested' i node) :
    i.SplicesAlike r nested nested' := by
  intro context
  have hspec := Interpolation.lower_spec hi context r.file
  unfold splice
  rw [hr]
  cases hlower : i.lower context .host r.file with
  | error failure => rfl
  | ok result =>
    rw [hlower] at hspec
    cases result with
    | error d => rfl
    | ok lowering =>
      have hnodes : lowering.args.mapM (argumentNode (nested i) i.loc) =
          lowering.args.mapM (argumentNode (nested' i) i.loc) := by
        refine Walk.mapM_congr fun arg harg => ?_
        cases arg with
        | text t => rfl
        | value role source node => exact h node (hspec.2 role source node harg)
      exact congrArg (· >>= fun nodes => pure (nodes, [lowering.args])) hnodes

/-- Bounds that the nesting of literals does not reach make no difference. -/
theorem nestedWithin_eq (hr : r.parsers = .host) {size levels levels' : Nat} (hsize : 0 < size)
    (hlevels : size ≤ levels) (hlevels' : size ≤ levels') {n : Node}
    (h : IsInserted (fun i => i.Ordered ∧ i.body.chars.length < size) n) :
    r.nestedWithin levels n = r.nestedWithin levels' n := by
  induction size using Nat.strongRecOn generalizing levels levels' n with
  | ind size ih =>
    obtain ⟨levels, rfl⟩ := Nat.exists_eq_add_one.2 (Nat.lt_of_lt_of_le hsize hlevels)
    obtain ⟨levels', rfl⟩ := Nat.exists_eq_add_one.2 (Nat.lt_of_lt_of_le hsize hlevels')
    rw [nestedWithin, nestedWithin]
    refine n.rewrite_congr (fun i hi => ?_) _
    obtain ⟨hordered, hlt⟩ := h.of_mem_literals i hi
    refine splicesAlike hr hordered fun node hnode => ?_
    exact ih _ hlt hnode.1 (by omega) (by omega) hnode.2

/-- A node out of a group is rewritten as it would be in a program. -/
theorem nested_eq_expr (hr : r.parsers = .host) {i : Interpolation} {n : Node} (h : i.Inserts n) :
    r.nested i n = r.expr "interpolation group" n := by
  obtain ⟨hpos, h⟩ := h
  obtain ⟨levels, hlevels⟩ : ∃ levels, i.body.chars.length + r.moreLevels = levels + 1 :=
    Nat.exists_eq_succ_of_ne_zero (by omega)
  rw [nested, hlevels, nestedWithin, expr]
  refine n.rewrite_congr (fun j hj => ?_) _
  obtain ⟨hordered, hlt⟩ := h.of_mem_literals j hj
  refine splicesAlike hr hordered fun node hnode => ?_
  exact nestedWithin_eq hr hnode.1 (by omega) (Nat.le_add_right _ _) hnode.2

end Rewriter

end Splice
