import Splice.Proofs.Literal.Tokens
import Splice.Proofs.Syntax.Nodes
import Splice.Syntax.TypeForm

/-!
# Sorts of nodes

A tree may have any node at any place. `HasSort` says which nodes stand where in the trees that the
grammar builds: what is an expression, an argument of a template, a type, a statement or a
parameter. The interpolated literals of a tree have a property that is a parameter of the judgement.

* `HasSort.map`: the sort does not depend on the locations.
* `HasSort.mono`: the property of the interpolated literals may be weakened.
* `HasSort.hasNoParam`: parameters stand in functions only.
* `HasSort.of_mem_literals`: the interpolated literals of a tree are those that have the property.
-/

namespace Splice

/-- Names with a point in front of each. -/
def dotted (names : List Text) : Text := names.flatMap ('.' :: ·)

/-- A name with the names behind its points. -/
def IsQualifiedName (t : Text) : Prop :=
  ∃ first names, IsName first ∧ (∀ n ∈ names, IsName n) ∧ t = first ++ dotted names

/-- The places of a tree that nodes are for. -/
inductive NodeSort
  | expr
  /-- An expression, or a type in its place. -/
  | templateArg
  /-- A type. One that begins with a reserved word can also stand among arguments. -/
  | type (reserved : Bool)
  | statement
  | param
  /-- What may be left out. -/
  | optional (sort : NodeSort)
deriving DecidableEq, Inhabited

/-- A node belongs to a place of a tree, and its interpolated literals have a property. -/
inductive HasSort (Q : Interpolation → Prop) : NodeSort → Node → Prop
  | name {loc : Loc} {ident : Text} (h : IsName ident) : HasSort Q .expr (.name loc ident)
  | literal {loc : Loc} {value : Constant} (h : value.IsRead) :
    HasSort Q .expr (.literal loc value)
  | interpolation {i : Interpolation} (h : Q i) : HasSort Q .expr (.interpolation i)
  | unary {loc : Loc} {mark : Mark} {op : UnaryOp} {operand : Node}
    (hop : (mark, op) ∈ UnaryOp.marks) (h : HasSort Q .expr operand) :
    HasSort Q .expr (.unary loc op operand)
  | binary {loc : Loc} {mark : Mark} {op : BinaryOp} {left right : Node}
    (hop : (mark, op) ∈ BinaryOp.marks) (hleft : HasSort Q .expr left)
    (hright : HasSort Q .expr right) : HasSort Q .expr (.binary loc op left right)
  | call {loc : Loc} {callee : Node} {args : List Node} (hcallee : HasSort Q .expr callee)
    (hargs : ∀ a ∈ args, HasSort Q .expr a) : HasSort Q .expr (.call loc callee args)
  | member {loc : Loc} {value : Node} {ident : Text} (hvalue : HasSort Q .expr value)
    (h : IsName ident) : HasSort Q .expr (.member loc value ident)
  | index {loc : Loc} {value offset : Node} (hvalue : HasSort Q .expr value)
    (hoffset : HasSort Q .expr offset) : HasSort Q .expr (.index loc value offset)
  | instantiate {loc : Loc} {template : Node} {args : List Node}
    (htemplate : HasSort Q .expr template) (hargs : ∀ a ∈ args, HasSort Q .templateArg a) :
    HasSort Q .expr (.instantiate loc template args)
  | mixin {loc : Loc} {args : List Node} (hargs : ∀ a ∈ args, HasSort Q .expr a) :
    HasSort Q .expr (.mixin loc args)
  | exprArg {e : Node} (h : HasSort Q .expr e) : HasSort Q .templateArg e
  | typeArg {loc : Loc} {t : Node} (h : HasSort Q (.type true) t) :
    HasSort Q .templateArg (.typeArg loc t)
  | builtin {loc : Loc} (b : BuiltinType) :
    HasSort Q (.type true) (.type (some loc) b.word false [] .missing)
  | qualified {loc : Loc} (q : Qualifier) {inner : Node} (h : HasSort Q (.type false) inner) :
    HasSort Q (.type true) (.type (some loc) q.word false [inner] .missing)
  | named {loc : Loc} {ident : Text} (h : IsQualifiedName ident) :
    HasSort Q (.type false) (.type (some loc) ident false [] .missing)
  | template {loc : Loc} {ident : Text} {args : List Node} (h : IsQualifiedName ident)
    (hargs : ∀ a ∈ args, HasSort Q .templateArg a) :
    HasSort Q (.type false) (.type (some loc) ident true args .missing)
  | pointer {loc : Loc} {reserved : Bool} {target : Node}
    (h : HasSort Q (.type reserved) target) :
    HasSort Q (.type reserved) (.type (some loc) TypeForm.pointerName false [target] .missing)
  | array {loc : Loc} {reserved : Bool} {element size : Node}
    (h : HasSort Q (.type reserved) element) (hsize : HasSort Q (.optional .expr) size) :
    HasSort Q (.type reserved) (.type (some loc) TypeForm.arrayName false [element] size)
  | anyType {t : Node} (h : HasSort Q (.type true) t) : HasSort Q (.type false) t
  | declare {loc : Loc} {ident : Text} {t value : Node}
    (ht : HasSort Q (.optional (.type false)) t) (hvalue : HasSort Q .expr value) :
    HasSort Q .statement (.declare loc ident t value)
  | giveBack {loc : Loc} {value : Node} (h : HasSort Q (.optional .expr) value) :
    HasSort Q .statement (.giveBack loc value)
  | evaluate {loc : Loc} {value : Node} (h : HasSort Q .expr value) :
    HasSort Q .statement (.evaluate loc value)
  | block {loc : Loc} {body : List Node} (h : ∀ s ∈ body, HasSort Q .statement s) :
    HasSort Q .statement (.block loc body)
  | function {loc bodyLoc : Loc} {ident : Text} {params body : List Node} {result : Node}
    (hparams : ∀ p ∈ params, HasSort Q .param p)
    (hresult : HasSort Q (.optional (.type false)) result)
    (hbody : ∀ s ∈ body, HasSort Q .statement s) :
    HasSort Q .statement (.function loc ident params result (.block bodyLoc body))
  | param {ident : Text} {t default : Node} (ht : HasSort Q (.type false) t)
    (hdefault : HasSort Q (.optional .expr) default) : HasSort Q .param (.param ident t default)
  | missing (sort : NodeSort) : HasSort Q (.optional sort) .missing
  | present {sort : NodeSort} {n : Node} (h : HasSort Q sort n) : HasSort Q (.optional sort) n

/-- What stands inside a statement or a parameter. -/
def NodeSort.isInner : NodeSort → Bool
  | expr | templateArg | type _ => true
  | statement | param => false
  | optional sort => sort.isInner

namespace HasSort

variable {Q Q' : Interpolation → Prop} {sort : NodeSort} {n : Node}

/-- A tree keeps its sort when its locations are mapped. -/
theorem map {f : Loc → Loc} (hQ : ∀ i, Q i → Q' (i.mapLoc f)) (h : HasSort Q sort n) :
    HasSort Q' sort (n.mapLoc f) := by
  induction h with
  | name h => exact .name h
  | literal h => exact .literal h
  | interpolation h => exact .interpolation (hQ _ h)
  | unary hop _ ih => exact .unary hop ih
  | binary hop _ _ ihleft ihright => exact .binary hop ihleft ihright
  | call _ _ ih ihargs =>
    refine .call ih ?_
    rw [Node.mapLocs_eq_map]
    exact List.forall_mem_map.2 ihargs
  | member _ h ih => exact .member ih h
  | index _ _ ihvalue ihoffset => exact .index ihvalue ihoffset
  | instantiate _ _ ih ihargs =>
    refine .instantiate ih ?_
    rw [Node.mapLocs_eq_map]
    exact List.forall_mem_map.2 ihargs
  | mixin _ ihargs =>
    refine .mixin ?_
    rw [Node.mapLocs_eq_map]
    exact List.forall_mem_map.2 ihargs
  | exprArg _ ih => exact .exprArg ih
  | typeArg _ ih => exact .typeArg ih
  | builtin b => exact .builtin b
  | qualified q _ ih => exact .qualified q ih
  | named h => exact .named h
  | template h _ ihargs =>
    refine .template h ?_
    rw [Node.mapLocs_eq_map]
    exact List.forall_mem_map.2 ihargs
  | pointer _ ih => exact .pointer ih
  | array _ _ ih ihsize => exact .array ih ihsize
  | anyType _ ih => exact .anyType ih
  | declare _ _ iht ihvalue => exact .declare iht ihvalue
  | giveBack _ ih => exact .giveBack ih
  | evaluate _ ih => exact .evaluate ih
  | block _ ih =>
    refine .block ?_
    rw [Node.mapLocs_eq_map]
    exact List.forall_mem_map.2 ih
  | function _ _ _ ihparams ihresult ihbody =>
    simp only [Node.mapLoc, Node.mapLocs_eq_map]
    exact .function (List.forall_mem_map.2 ihparams) ihresult (List.forall_mem_map.2 ihbody)
  | param _ _ iht ihdefault => exact .param iht ihdefault
  | missing sort => exact .missing sort
  | present _ ih => exact .present ih

theorem mono (hQ : ∀ i, Q i → Q' i) (h : HasSort Q sort n) : HasSort Q' sort n := by
  rw [← n.mapLoc_id]
  refine h.map fun i hi => ?_
  rw [i.mapLoc_id]
  exact hQ i hi

theorem of_mem_literalsOf {ns : List Node} (h : ∀ n ∈ ns, ∀ i ∈ n.literals, Q i) :
    ∀ i ∈ Node.literalsOf ns, Q i := by
  intro i hi
  rw [Node.literalsOf_eq_flatMap] at hi
  obtain ⟨n, hn, hi⟩ := List.mem_flatMap.1 hi
  exact h n hn i hi

/-- The interpolated literals of a tree have the property. -/
theorem of_mem_literals (h : HasSort Q sort n) : ∀ i ∈ n.literals, Q i := by
  induction h with
  | name | literal | builtin | named | missing => nofun
  | interpolation h => exact List.forall_mem_singleton.2 h
  | unary _ _ ih | member _ _ ih | exprArg _ ih | typeArg _ ih | anyType _ ih | giveBack _ ih
  | evaluate _ ih | present _ ih => exact ih
  | binary _ _ _ ih ih' | index _ _ ih ih' | declare _ _ ih ih' =>
    exact List.forall_mem_append.2 ⟨ih, ih'⟩
  | call _ _ ih ihargs | instantiate _ _ ih ihargs =>
    exact List.forall_mem_append.2 ⟨ih, of_mem_literalsOf ihargs⟩
  | mixin _ ihargs => exact of_mem_literalsOf ihargs
  | block _ ih => exact of_mem_literalsOf ih
  | qualified _ _ ih | pointer _ ih =>
    have hone := of_mem_literalsOf (List.forall_mem_singleton.2 ih)
    exact List.forall_mem_append.2 ⟨hone, nofun⟩
  | template _ _ ihargs => exact List.forall_mem_append.2 ⟨of_mem_literalsOf ihargs, nofun⟩
  | array _ _ ih ihsize =>
    have hone := of_mem_literalsOf (List.forall_mem_singleton.2 ih)
    exact List.forall_mem_append.2 ⟨hone, ihsize⟩
  | function _ _ _ ihparams ihresult ihbody =>
    have hfront := List.forall_mem_append.2 ⟨of_mem_literalsOf ihparams, ihresult⟩
    exact List.forall_mem_append.2 ⟨hfront, of_mem_literalsOf ihbody⟩
  | param _ _ iht ihdefault => exact List.forall_mem_append.2 ⟨ihdefault, iht⟩

/-- There are no parameters in an expression or a type. -/
theorem hasNoParam (h : HasSort Q sort n) (hsort : sort.isInner = true) : n.HasNoParam := by
  induction h with
  | name | literal | interpolation => exact .of_children nofun nofun
  | unary _ _ ih | member _ _ ih | typeArg _ ih =>
    exact .of_children nofun (List.forall_mem_singleton.2 (ih rfl))
  | binary _ _ _ ih ih' | index _ _ ih ih' =>
    refine .of_children nofun (List.forall_mem_cons.2 ⟨ih rfl, ?_⟩)
    exact List.forall_mem_singleton.2 (ih' rfl)
  | call _ _ ih ihargs | instantiate _ _ ih ihargs =>
    exact .of_children nofun (List.forall_mem_cons.2 ⟨ih rfl, fun a ha => ihargs a ha rfl⟩)
  | mixin _ ihargs => exact .of_children nofun fun a ha => ihargs a ha rfl
  | exprArg _ ih | anyType _ ih => exact ih rfl
  | missing => exact Node.hasNoParam_missing
  | present _ ih => exact ih hsort
  | builtin | named =>
    exact .of_children nofun (List.forall_mem_singleton.2 Node.hasNoParam_missing)
  | qualified _ _ ih | pointer _ ih =>
    refine .of_children nofun (List.forall_mem_cons.2 ⟨ih rfl, ?_⟩)
    exact List.forall_mem_singleton.2 Node.hasNoParam_missing
  | template _ _ ihargs =>
    refine .of_children nofun (List.forall_mem_append.2 ⟨fun a ha => ihargs a ha rfl, ?_⟩)
    exact List.forall_mem_singleton.2 Node.hasNoParam_missing
  | array _ _ ih ihsize =>
    refine .of_children nofun (List.forall_mem_cons.2 ⟨ih rfl, ?_⟩)
    exact List.forall_mem_singleton.2 (ihsize rfl)
  | declare | giveBack | evaluate | block | function | param => cases hsort

theorem not_missing (h : HasSort Q .expr n) : n.isMissing = false := by
  cases h <;> rfl

/-- Every type of a source has a place. -/
theorem loc_of_type {reserved : Bool} (h : HasSort Q (.type reserved) n) :
    ∃ loc, n.loc? = some loc := by
  generalize hsort : NodeSort.type reserved = sort at h
  induction h generalizing reserved with
  | builtin | qualified | named | template | pointer | array => exact ⟨_, rfl⟩
  | anyType _ ih => exact ih rfl
  | _ => cases hsort

end HasSort

end Splice
