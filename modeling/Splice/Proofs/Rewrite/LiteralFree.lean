import Splice.Proofs.Rewrite.Conserves
import Splice.Proofs.Syntax.Sorts
import Splice.Rewrite.Program

/-!
# Rewriting trees without interpolated literals

* `rewrite_literalFree`: an expression or a type without interpolated literals is left as it is.
* `Rewriter.program_literalFree`: so is a program.
-/

namespace Splice

section Trees

variable {r : Rewriter} {nested : Interpolation → Node → Walk Node} {Q : Interpolation → Prop}

/-- Rewriting leaves a tree of some sort as it is, if it has no interpolated literals. -/
def RewriteKeeps (r : Rewriter) (nested : Interpolation → Node → Walk Node) :
    NodeSort → Node → Prop
  | .expr, n | .templateArg, n => n.isType = false ∧
    (n.literals = [] → ∀ place, n.rewrite r nested place = pure n)
  | .type _, n => n.isType = true ∧ (n.literals = [] → n.rewriteType r nested = pure n)
  | .optional sort, n => n = .missing ∨ RewriteKeeps r nested sort n
  | .statement, _ | .param, _ => True

theorem rewriteArgs_literalFree {args : List Node}
    (h : ∀ a ∈ args, a.literals = [] → ∀ place, a.rewrite r nested place = pure a)
    (hfree : Node.literalsOf args = []) (context : Context) :
    Node.rewriteArgs r nested context args = pure (args, []) := by
  induction args with
  | nil => rfl
  | cons a rest ih =>
    obtain ⟨hfirst, hlater⟩ := List.forall_mem_cons.1 h
    obtain ⟨hfree, hfreeLater⟩ := List.append_eq_nil_iff.1 hfree
    have ha (i : Interpolation) : a ≠ .interpolation i := by
      rintro rfl
      cases hfree
    rw [Node.rewriteArgs_cons ha, hfirst hfree, ih hlater hfreeLater]
    rfl

/-- Arguments that are no types by themselves are left to the walk over arguments. -/
theorem rewriteTypes_of_args {args : List Node} (h : ∀ a ∈ args, a.isType = false) :
    Node.rewriteTypes r nested args = pure args := by
  induction args with
  | nil => rfl
  | cons a rest ih =>
    obtain ⟨hfirst, hlater⟩ := List.forall_mem_cons.1 h
    rw [Node.rewriteTypes, ih hlater, if_neg (by rw [hfirst]; decide)]
    rfl

theorem rewriteTypes_singleton_literalFree {reserved : Bool} {t : Node}
    (h : RewriteKeeps r nested (.type reserved) t) (hfree : Node.literalsOf [t] = []) :
    Node.rewriteTypes r nested [t] = pure [t] := by
  obtain ⟨htype, h⟩ := h
  rw [Node.rewriteTypes, if_pos htype, h (List.append_eq_nil_iff.1 hfree).1]
  rfl

/-- The walk over a type that is no template, with its last step by itself. -/
theorem rewriteType_plain_eq {loc : Option Loc} {ident : Text} {args : List Node} {size : Node} :
    Node.rewriteType r nested (.type loc ident false args size) =
      Node.rewriteTypes r nested args >>= fun inner =>
        (if size.isMissing then pure size else size.rewrite r nested "array size") >>= fun size =>
          pure (.type loc ident false inner size) := by
  rw [Node.rewriteType]
  simp only [Bool.false_eq_true, if_false, pure_bind]
  split <;> simp only [pure_bind]

/-- The last step of the walk over a type goes over its size. -/
theorem rewriteSize_literalFree {size : Node} (hfree : size.literals = [])
    (h : RewriteKeeps r nested (.optional .expr) size) (f : Node → Node) :
    ((if size.isMissing then pure size else size.rewrite r nested "array size") >>= fun size =>
      pure (f size)) = pure (f size) := by
  by_cases hmissing : size.isMissing = true
  · rw [if_pos hmissing, pure_bind]
  -- A size is an expression, so what is known of expressions holds of it.
  · rw [if_neg hmissing]
    rcases h with rfl | ⟨-, h⟩
    · exact absurd rfl hmissing
    · rw [h hfree, pure_bind]

theorem rewriteType_plain_literalFree {loc : Option Loc} {ident : Text} {args : List Node}
    {size : Node} (hargs : Node.rewriteTypes r nested args = pure args)
    (hfree : size.literals = []) (hsize : RewriteKeeps r nested (.optional .expr) size) :
    Node.rewriteType r nested (.type loc ident false args size) =
      pure (.type loc ident false args size) := by
  rw [rewriteType_plain_eq, hargs, pure_bind, rewriteSize_literalFree hfree hsize]

theorem rewriteType_template_literalFree {loc : Option Loc} {ident : Text} {args : List Node}
    (hargs : ∀ a ∈ args, RewriteKeeps r nested .templateArg a)
    (hfree : Node.literalsOf args = []) :
    Node.rewriteType r nested (.type loc ident true args .missing) =
      pure (.type loc ident true args .missing) := by
  rw [Node.rewriteType, rewriteTypes_of_args fun a ha => (hargs a ha).1]
  simp only [if_true, pure_bind]
  rw [rewriteArgs_literalFree (fun a ha => (hargs a ha).2) hfree]
  rfl

/-- Rewriting leaves a tree of the host grammar as it is, if it has no interpolated literals. -/
theorem rewrite_literalFree {sort : NodeSort} {n : Node} (h : HasSort Q sort n) :
    RewriteKeeps r nested sort n := by
  -- A node without literals has parts without literals, and a walk that changes no part and
  -- records nothing gives the node back.
  induction h with
  | name => exact ⟨rfl, fun _ _ => rfl⟩
  | literal => exact ⟨rfl, fun _ _ => rfl⟩
  -- A literal is one of its own literals, so there is nothing to show.
  | interpolation => exact ⟨rfl, nofun⟩
  | unary hop _ ih =>
    refine ⟨rfl, fun hfree place => ?_⟩
    rw [Node.rewrite, ih.2 hfree]
    rfl
  | binary hop _ _ ihleft ihright =>
    refine ⟨rfl, fun hfree place => ?_⟩
    obtain ⟨hleft, hright⟩ := List.append_eq_nil_iff.1 hfree
    rw [Node.rewrite, ihleft.2 hleft, pure_bind, ihright.2 hright]
    rfl
  | call _ _ ih ihargs =>
    refine ⟨rfl, fun hfree place => ?_⟩
    obtain ⟨hcallee, hargs⟩ := List.append_eq_nil_iff.1 hfree
    rw [Node.rewrite, ih.2 hcallee, pure_bind,
      rewriteArgs_literalFree (fun a ha => (ihargs a ha).2) hargs]
    rfl
  | member _ h ih =>
    refine ⟨rfl, fun hfree place => ?_⟩
    rw [Node.rewrite, ih.2 hfree]
    rfl
  | index _ _ ihvalue ihoffset =>
    refine ⟨rfl, fun hfree place => ?_⟩
    obtain ⟨hvalue, hoffset⟩ := List.append_eq_nil_iff.1 hfree
    rw [Node.rewrite, ihvalue.2 hvalue, pure_bind, ihoffset.2 hoffset]
    rfl
  | instantiate _ _ ih ihargs =>
    refine ⟨rfl, fun hfree place => ?_⟩
    obtain ⟨htemplate, hargs⟩ := List.append_eq_nil_iff.1 hfree
    rw [Node.rewrite, ih.2 htemplate, pure_bind,
      rewriteArgs_literalFree (fun a ha => (ihargs a ha).2) hargs]
    rfl
  | mixin _ ihargs =>
    refine ⟨rfl, fun hfree place => ?_⟩
    rw [Node.rewrite, rewriteArgs_literalFree (fun a ha => (ihargs a ha).2) hfree]
    rfl
  | exprArg _ ih => exact ih
  | typeArg _ ih =>
    refine ⟨rfl, fun hfree place => ?_⟩
    rw [Node.rewrite, ih.2 hfree]
    rfl
  | builtin b => exact ⟨rfl, fun _ => rewriteType_plain_literalFree rfl rfl (.inl rfl)⟩
  | qualified q _ ih =>
    refine ⟨rfl, fun hfree => ?_⟩
    obtain ⟨hargs, -⟩ := List.append_eq_nil_iff.1 hfree
    exact rewriteType_plain_literalFree (rewriteTypes_singleton_literalFree ih hargs) rfl (.inl rfl)
  | named h => exact ⟨rfl, fun _ => rewriteType_plain_literalFree rfl rfl (.inl rfl)⟩
  | template h _ ihargs =>
    refine ⟨rfl, fun hfree => rewriteType_template_literalFree ihargs ?_⟩
    exact (List.append_eq_nil_iff.1 hfree).1
  | pointer _ ih =>
    refine ⟨rfl, fun hfree => ?_⟩
    obtain ⟨hargs, -⟩ := List.append_eq_nil_iff.1 hfree
    exact rewriteType_plain_literalFree (rewriteTypes_singleton_literalFree ih hargs) rfl (.inl rfl)
  | array _ _ ih ihsize =>
    refine ⟨rfl, fun hfree => ?_⟩
    obtain ⟨hargs, hsize⟩ := List.append_eq_nil_iff.1 hfree
    exact rewriteType_plain_literalFree (rewriteTypes_singleton_literalFree ih hargs) hsize ihsize
  | anyType _ ih => exact ih
  | missing => exact .inl rfl
  | present _ ih => exact .inr ih
  | declare | giveBack | evaluate | block | function | param => trivial

end Trees

namespace Rewriter

variable {r : Rewriter} {Q : Interpolation → Prop}

theorem optional_literalFree {f : Node → Walk Node} {n : Node} (hfree : n.literals = [])
    (h : n = .missing ∨ (n.literals = [] → f n = pure n)) : optional f n = pure n := by
  unfold optional
  rcases h with rfl | h
  · rfl
  · rw [h hfree, ite_self]

/-- Rewriting leaves a statement or a parameter as it is, if it has no interpolated literals. -/
def StmtKeeps (r : Rewriter) : NodeSort → Node → Prop
  | .statement, n => n.literals = [] → r.stmt n = pure n
  | .param, n => n.literals = [] → r.param n = pure n
  | _, _ => True

theorem stmts_literalFree {body : List Node} (h : ∀ s ∈ body, r.StmtKeeps .statement s)
    (hfree : Node.literalsOf body = []) : r.stmts body = pure body := by
  induction body with
  | nil => rfl
  | cons s rest ih =>
    obtain ⟨hfirst, hlater⟩ := List.forall_mem_cons.1 h
    obtain ⟨hfree, hfreeLater⟩ := List.append_eq_nil_iff.1 hfree
    rw [stmts, hfirst hfree, pure_bind, ih hlater hfreeLater]
    rfl

theorem params_literalFree {params : List Node} (h : ∀ p ∈ params, r.StmtKeeps .param p)
    (hfree : Node.literalsOf params = []) : params.mapM r.param = pure params := by
  induction params with
  | nil => rfl
  | cons p rest ih =>
    obtain ⟨hfirst, hlater⟩ := List.forall_mem_cons.1 h
    obtain ⟨hfree, hfreeLater⟩ := List.append_eq_nil_iff.1 hfree
    rw [List.mapM_cons, hfirst hfree, pure_bind, ih hlater hfreeLater]
    rfl

/-- Rewriting leaves a statement of the host grammar as it is, if it has no interpolated
literals. -/
theorem stmt_literalFree {sort : NodeSort} {n : Node} (h : HasSort Q sort n) :
    r.StmtKeeps sort n := by
  -- Expressions and types are settled, so a statement without literals is rewritten part by part
  -- to itself.
  have hexpr {e : Node} (h : HasSort Q .expr e) (hfree : e.literals = []) (place : Text) :
      r.expr place e = pure e := (rewrite_literalFree h).2 hfree place
  have htype {reserved : Bool} {t : Node} (h : HasSort Q (.type reserved) t)
      (hfree : t.literals = []) : r.type t = pure t := (rewrite_literalFree h).2 hfree
  have hoptionalExpr {e : Node} (h : HasSort Q (.optional .expr) e) (hfree : e.literals = [])
      (place : Text) : optional (r.expr place) e = pure e :=
    optional_literalFree hfree ((rewrite_literalFree h).imp_right fun h hfree => h.2 hfree place)
  have hoptionalType {reserved : Bool} {t : Node} (h : HasSort Q (.optional (.type reserved)) t)
      (hfree : t.literals = []) : optional r.type t = pure t :=
    optional_literalFree hfree ((rewrite_literalFree h).imp_right fun h => h.2)
  induction h with
  | declare ht hvalue =>
    intro hfree
    obtain ⟨hfreeType, hfree⟩ := List.append_eq_nil_iff.1 hfree
    rw [stmt, hoptionalType ht hfreeType, pure_bind, hexpr hvalue hfree]
    rfl
  | giveBack h =>
    intro hfree
    rw [stmt, hoptionalExpr h hfree]
    rfl
  | evaluate h =>
    intro hfree
    rw [stmt, hexpr h hfree]
    rfl
  | block _ ih =>
    intro hfree
    rw [stmt, stmts_literalFree ih hfree]
    rfl
  | function hparams hresult _ ihparams _ ihbody =>
    intro hfree
    obtain ⟨hfree, hfreeBody⟩ := List.append_eq_nil_iff.1 hfree
    obtain ⟨hfreeParams, hfreeResult⟩ := List.append_eq_nil_iff.1 hfree
    rw [stmt, params_literalFree ihparams hfreeParams, pure_bind,
      hoptionalType hresult hfreeResult, pure_bind, stmt,
      stmts_literalFree ihbody hfreeBody]
    rfl
  | param ht hdefault =>
    intro hfree
    obtain ⟨hfreeDefault, hfreeType⟩ := List.append_eq_nil_iff.1 hfree
    rw [param, hoptionalExpr hdefault hfreeDefault, pure_bind, htype ht hfreeType]
    rfl
  | _ => trivial

/-- Rewriting leaves a program without interpolated literals as it is, and records nothing. -/
theorem program_literalFree {p : Program} (h : ∀ s ∈ p, HasSort Q .statement s)
    (hfree : Node.literalsOf p = []) : r.program p = pure p :=
  stmts_literalFree (fun s hs => stmt_literalFree (h s hs)) hfree

end Rewriter

end Splice
