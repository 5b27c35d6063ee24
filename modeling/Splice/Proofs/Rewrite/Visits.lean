import Mathlib.Algebra.Order.Group.Multiset
import Mathlib.Data.List.Forall2
import Mathlib.Tactic.Abel
import Splice.Proofs.Syntax.Nodes
import Splice.Rewrite.Program

/-!
# Visits of argument lists

Rewriting visits every argument list of a program once, and every one of the nodes that come out of
groups. Each argument of a list is a piece: a literal that was lowered, a literal that was kept, or
anything else, which is rewritten by itself. A site is recorded for a visit if some literal was
lowered in it.

* `Piece.Holds`, `Visit.Holds`: an argument, and an argument list, came out as rewriting says.
* `Covers`: which argument lists some visits are of, and which of the result they come to.
* `Walk.Visits`: the visits of a walk, which its sites are recorded for.
* `Walk.Visits.bind`: those of two steps, one after the other.
-/

namespace Splice

/-! ## Pieces -/

/-- How an argument comes out of rewriting. -/
inductive Piece
  /-- A literal that was lowered to arguments, and the nodes that took its place. -/
  | lowered (i : Interpolation) (args : List Argument) (nodes : List Node)
  /-- A literal that could not be lowered. -/
  | kept (i : Interpolation)
  /-- Any other argument, and what it was rewritten to. -/
  | other (arg node : Node)

/-- The node of an argument that came out of a group. -/
def Argument.nodes : Argument → List Node
  | text _ => []
  | value _ _ node => [node]

/-- What an argument of a lowered literal becomes: a text becomes a string literal where the literal
stands, and a node becomes what it is rewritten to. -/
inductive Argument.Becomes (r : Rewriter) (loc : Loc) : Argument → Node → Prop
  | text (t : Text) : Becomes r loc (.text t) (.literal loc (.string t))
  | value {role : Role} {source : Text} {node n : Node}
    (h : (r.expr "interpolation group" node).result = .ok n) :
    Becomes r loc (.value role source node) n

namespace Piece

/-- The argument. -/
def before : Piece → Node
  | lowered i _ _ | kept i => .interpolation i
  | other arg _ => arg

/-- The arguments in its place. -/
def after : Piece → List Node
  | lowered _ _ nodes => nodes
  | kept i => [.interpolation i]
  | other _ node => [node]

/-- What a lowered literal became. -/
def lowered? : Piece → Option (List Argument)
  | lowered _ args _ => some args
  | kept _ | other _ _ => none

/-- The argument lists in the nodes that came out of groups. -/
def inserted : Piece → List Node
  | lowered _ args _ => Node.applicationsOf (args.flatMap Argument.nodes)
  | kept _ | other _ _ => []

/-- The argument came out as rewriting says. -/
inductive Holds (r : Rewriter) (context : Context) : Piece → Prop
  | lowered {i : Interpolation} {lowering : Lowering} {nodes : List Node}
    (h : i.lower context r.parsers r.file = .ok (.ok lowering))
    (hnodes : List.Forall₂ (Argument.Becomes r i.loc) lowering.args nodes) :
    Holds r context (.lowered i lowering.args nodes)
  | kept {i : Interpolation} {d : Diagnostic}
    (h : i.lower context r.parsers r.file = .ok (.error d)) : Holds r context (.kept i)
  | other {arg node : Node} (harg : ∀ i, arg ≠ .interpolation i)
    (h : (r.expr context.describe arg).result = .ok node) : Holds r context (.other arg node)

end Piece

/-! ## Visits -/

/-- A node with an argument list before and after rewriting, and its arguments. -/
structure Visit where
  before : Node
  after : Node
  pieces : List Piece

namespace Visit

/-- What the literals that were lowered became. -/
def lowered (v : Visit) : List (List Argument) := v.pieces.filterMap Piece.lowered?

/-- The argument lists in the nodes that came out of groups of the list. -/
def inserted (v : Visit) : List Node := v.pieces.flatMap Piece.inserted

/-- The site of the argument list. A template of types is recorded in the place of an argument. -/
def site (v : Visit) : Site :=
  match v.after with
  | .type loc _ _ _ _ => ⟨loc.getD ⟨0, 0⟩, .typeArg (loc.getD ⟨0, 0⟩) v.after, v.lowered⟩
  | n => ⟨n.loc?.getD .start, n, v.lowered⟩

@[simp] theorem lowered_site (v : Visit) : v.site.lowered = v.lowered := by
  unfold site
  split <;> rfl

/-- The argument list is the one before with every argument replaced by what it came to, and a node
in front of it was rewritten by itself. -/
inductive Holds (r : Rewriter) : Visit → Prop
  | call {loc : Loc} {callee callee' : Node} {pieces : List Piece}
    (hcallee : (r.expr "callee" callee).result = .ok callee')
    (h : ∀ p ∈ pieces, p.Holds r .callArgument) :
    Holds r ⟨.call loc callee (pieces.map Piece.before),
      .call loc callee' (pieces.flatMap Piece.after), pieces⟩
  | instantiate {loc : Loc} {template template' : Node} {pieces : List Piece}
    (htemplate : (r.expr "template name" template).result = .ok template')
    (h : ∀ p ∈ pieces, p.Holds r .templateArgument) :
    Holds r ⟨.instantiate loc template (pieces.map Piece.before),
      .instantiate loc template' (pieces.flatMap Piece.after), pieces⟩
  | mixin {loc : Loc} {pieces : List Piece} (h : ∀ p ∈ pieces, p.Holds r .mixinArgument) :
    Holds r ⟨.mixin loc (pieces.map Piece.before), .mixin loc (pieces.flatMap Piece.after), pieces⟩
  | type {loc : Option Loc} {ident : Text} {pieces : List Piece}
    (h : ∀ p ∈ pieces, p.Holds r .templateArgument) :
    Holds r ⟨.type loc ident true (pieces.map Piece.before) .missing,
      .type loc ident true (pieces.flatMap Piece.after) .missing, pieces⟩

end Visit

/-- The sites of the visits in which a literal was lowered. -/
def sitesOf (visits : List Visit) : List Site :=
  (visits.filter fun v => !v.lowered.isEmpty).map Visit.site

theorem sitesOf_append (visits later : List Visit) :
    sitesOf (visits ++ later) = sitesOf visits ++ sitesOf later := by
  rw [sitesOf, List.filter_append, List.map_append]
  rfl

/-! ## What is visited -/

/-- The visits come to the argument lists `after`, in this order. They are of the argument lists
`before` and of those out of groups; `inserted` are the ones out of groups of a list whose own visit
is still to come. -/
structure Covers (visits : List Visit) (before after inserted : List Node) : Prop where
  after_eq : visits.map Visit.after = after
  before_perm : (visits.map Visit.before).Perm
    (before ++ (visits.flatMap Visit.inserted ++ inserted))

namespace Covers

variable {visits visits' : List Visit} {before before' after after' inserted inserted' : List Node}

theorem nil : Covers [] [] [] [] := ⟨rfl, .refl _⟩

theorem append (h : Covers visits before after inserted)
    (h' : Covers visits' before' after' inserted') :
    Covers (visits ++ visits') (before ++ before') (after ++ after') (inserted ++ inserted') := by
  refine ⟨?_, ?_⟩
  · rw [List.map_append, h.after_eq, h'.after_eq]
  · rw [List.map_append, List.flatMap_append]
    refine (h.before_perm.append h'.before_perm).trans ?_
    simp only [← Multiset.coe_eq_coe, ← Multiset.coe_add]
    abel

/-- What is below a node that came out of a group. -/
theorem insert (h : Covers visits before after []) : Covers visits [] after before := by
  refine ⟨h.after_eq, h.before_perm.trans ?_⟩
  rw [List.append_nil, List.nil_append]
  exact List.perm_append_comm

/-- The visit of an argument list, after those inside it. -/
theorem visit {v : Visit} (h : Covers visits before after v.inserted) :
    Covers (visits ++ [v]) (before ++ [v.before]) (after ++ [v.after]) [] := by
  refine ⟨?_, ?_⟩
  · rw [List.map_append, h.after_eq]
    rfl
  · rw [List.map_append, List.flatMap_append]
    refine (h.before_perm.append_right _).trans ?_
    simp only [List.map_singleton, List.flatMap_singleton, ← Multiset.coe_eq_coe,
      ← Multiset.coe_add, Multiset.coe_nil]
    abel

end Covers

/-! ## Visits of a walk -/

namespace Walk

variable {r : Rewriter} {α β : Type} {P : α → List Visit → Prop} {P' : β → List Visit → Prop}

/-- The sites of a walk are those of visits that come out as rewriting says, and its result has a
property together with them. -/
def Visits (r : Rewriter) (P : α → List Visit → Prop) (w : Walk α) : Prop :=
  match w.result with
  | .ok a => ∃ visits, (∀ v ∈ visits, v.Holds r) ∧ w.log.sites = sitesOf visits ∧ P a visits
  | .error _ => True

namespace Visits

theorem pure {a : α} (h : P a []) : (Pure.pure a : Walk α).Visits r P := ⟨[], nofun, rfl, h⟩

theorem imp {Q : α → List Visit → Prop} {x : Walk α} (h : x.Visits r P)
    (hP : ∀ a visits, x.result = .ok a → P a visits → Q a visits) : x.Visits r Q := by
  unfold Visits at h ⊢
  cases hresult : x.result with
  | error failure => trivial
  | ok a =>
    rw [hresult] at h
    obtain ⟨visits, hvisits, hsites, ha⟩ := h
    exact ⟨visits, hvisits, hsites, hP a visits hresult ha⟩

theorem bind {x : Walk α} {f : α → Walk β} (hx : x.Visits r P)
    (hf : ∀ a visits, x.result = .ok a → P a visits →
      (f a).Visits r fun b later => P' b (visits ++ later)) : (x >>= f).Visits r P' := by
  unfold Visits at hx ⊢
  cases hresult : x.result with
  | error failure =>
    rw [bind_of_error hresult]
    trivial
  | ok a =>
    rw [hresult] at hx
    obtain ⟨visits, hvisits, hsites, ha⟩ := hx
    have hf := hf a visits hresult ha
    unfold Visits at hf
    rw [result_bind hresult, log_bind hresult]
    cases hlast : (f a).result with
    | error failure => trivial
    | ok b =>
      rw [hlast] at hf
      obtain ⟨later, hlater, hsitesLater, hb⟩ := hf
      refine ⟨visits ++ later, List.forall_mem_append.2 ⟨hvisits, hlater⟩, ?_, hb⟩
      rw [Log.append_def, hsites, hsitesLater, sitesOf_append]

/-- A last step that visits nothing. -/
theorem last {x : Walk α} {f : α → β} (hx : x.Visits r P)
    (hf : ∀ a visits, x.result = .ok a → P a visits → P' (f a) visits) :
    (x >>= fun a => Pure.pure (f a)).Visits r P' :=
  hx.bind fun a visits ha h => pure (by rw [List.append_nil]; exact hf a visits ha h)

end Visits

end Walk

end Splice
