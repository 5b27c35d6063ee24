import Splice.Syntax.Node

/-!
# Trees and their interpolated literals

* `Node.mapLoc_mapLoc`, `Node.mapLoc_id`: mapping the locations of a tree twice, and not at all.
* `Node.Everywhere`: a property of all locations of a tree.
* `Node.mapLoc_congr`: only the locations of the tree count.
* `Node.literals`: the interpolated literals of a tree in the order in which rewriting meets them.
* `Node.literals_eq`: this is the order of the nodes, but for parameters.
* `Node.IsPartOf`: the nodes of a tree.
* `Node.applications`: the nodes of a tree that have argument lists, in the order in which rewriting
  is done with them.
-/

namespace Splice

namespace PlacedText

theorem map_map (f g : Loc → Loc) (p : PlacedText) : (p.map g).map f = p.map (f ∘ g) := by
  simp [map, Function.comp_def]

theorem map_id (p : PlacedText) : p.map id = p := by
  simp [map]

/-- Maps of locations that agree on the places of a text. -/
theorem map_congr {f g : Loc → Loc} {p : PlacedText} (h : ∀ loc ∈ p.positions, f loc = g loc) :
    p.map f = p.map g := by
  obtain ⟨hchars, hstop⟩ := List.forall_mem_append.1 h
  rw [map, map, hstop _ (List.mem_singleton_self _)]
  congr 1
  exact List.map_congr_left fun c hc => congrArg (Prod.mk c.1) (hchars _ (List.mem_map_of_mem hc))

end PlacedText

namespace Interpolation

theorem mapLoc_mapLoc (f g : Loc → Loc) (i : Interpolation) :
    (i.mapLoc g).mapLoc f = i.mapLoc (f ∘ g) := by
  simp [mapLoc, PlacedText.map_map]

theorem mapLoc_id (i : Interpolation) : i.mapLoc id = i := by
  simp [mapLoc, PlacedText.map_id]

end Interpolation

mutual

theorem Node.mapLoc_mapLoc (f g : Loc → Loc) : ∀ n : Node, (n.mapLoc g).mapLoc f = n.mapLoc (f ∘ g)
  | .missing | .name .. | .literal .. => rfl
  | .unary _ _ operand => by simp [mapLoc, operand.mapLoc_mapLoc f g]
  | .binary _ _ left right => by
    simp [mapLoc, left.mapLoc_mapLoc f g, right.mapLoc_mapLoc f g]
  | .call _ callee args => by
    simp [mapLoc, callee.mapLoc_mapLoc f g, Node.mapLocs_mapLocs f g args]
  | .member _ value _ => by simp [mapLoc, value.mapLoc_mapLoc f g]
  | .index _ value offset => by
    simp [mapLoc, value.mapLoc_mapLoc f g, offset.mapLoc_mapLoc f g]
  | .instantiate _ template args => by
    simp [mapLoc, template.mapLoc_mapLoc f g, Node.mapLocs_mapLocs f g args]
  | .mixin _ args => by simp [mapLoc, Node.mapLocs_mapLocs f g args]
  | .typeArg _ t => by simp [mapLoc, t.mapLoc_mapLoc f g]
  | .interpolation i => by simp [mapLoc, i.mapLoc_mapLoc]
  | .type loc _ _ args size => by
    simp [mapLoc, Node.mapLocs_mapLocs f g args, size.mapLoc_mapLoc f g]
  | .declare _ _ t value => by simp [mapLoc, t.mapLoc_mapLoc f g, value.mapLoc_mapLoc f g]
  | .giveBack _ value => by simp [mapLoc, value.mapLoc_mapLoc f g]
  | .evaluate _ value => by simp [mapLoc, value.mapLoc_mapLoc f g]
  | .block _ body => by simp [mapLoc, Node.mapLocs_mapLocs f g body]
  | .function _ _ params result body => by
    simp [mapLoc, Node.mapLocs_mapLocs f g params, result.mapLoc_mapLoc f g,
      body.mapLoc_mapLoc f g]
  | .param _ t default => by simp [mapLoc, t.mapLoc_mapLoc f g, default.mapLoc_mapLoc f g]
  | .program body => by simp [mapLoc, Node.mapLocs_mapLocs f g body]

theorem Node.mapLocs_mapLocs (f g : Loc → Loc) :
    ∀ ns : List Node, Node.mapLocs f (Node.mapLocs g ns) = Node.mapLocs (f ∘ g) ns
  | [] => rfl
  | n :: rest => by simp [mapLocs, n.mapLoc_mapLoc f g, Node.mapLocs_mapLocs f g rest]

end

mutual

theorem Node.mapLoc_id : ∀ n : Node, n.mapLoc id = n
  | .missing | .name .. | .literal .. => rfl
  | .unary _ _ operand => by simp [mapLoc, operand.mapLoc_id]
  | .binary _ _ left right => by simp [mapLoc, left.mapLoc_id, right.mapLoc_id]
  | .call _ callee args => by simp [mapLoc, callee.mapLoc_id, Node.mapLocs_id args]
  | .member _ value _ => by simp [mapLoc, value.mapLoc_id]
  | .index _ value offset => by simp [mapLoc, value.mapLoc_id, offset.mapLoc_id]
  | .instantiate _ template args => by
    simp [mapLoc, template.mapLoc_id, Node.mapLocs_id args]
  | .mixin _ args => by simp [mapLoc, Node.mapLocs_id args]
  | .typeArg _ t => by simp [mapLoc, t.mapLoc_id]
  | .interpolation i => by simp [mapLoc, i.mapLoc_id]
  | .type loc _ _ args size => by simp [mapLoc, Node.mapLocs_id args, size.mapLoc_id]
  | .declare _ _ t value => by simp [mapLoc, t.mapLoc_id, value.mapLoc_id]
  | .giveBack _ value => by simp [mapLoc, value.mapLoc_id]
  | .evaluate _ value => by simp [mapLoc, value.mapLoc_id]
  | .block _ body => by simp [mapLoc, Node.mapLocs_id body]
  | .function _ _ params result body => by
    simp [mapLoc, Node.mapLocs_id params, result.mapLoc_id, body.mapLoc_id]
  | .param _ t default => by simp [mapLoc, t.mapLoc_id, default.mapLoc_id]
  | .program body => by simp [mapLoc, Node.mapLocs_id body]

theorem Node.mapLocs_id : ∀ ns : List Node, Node.mapLocs id ns = ns
  | [] => rfl
  | n :: rest => by simp [mapLocs, n.mapLoc_id, Node.mapLocs_id rest]

end

/-! ## Interpolated literals -/

mutual

/-- The interpolated literals of a tree, in the order in which rewriting meets them: from left to
right, but the default value of a parameter before its type. -/
def Node.literals : Node → List Interpolation
  | .interpolation i => [i]
  | .missing | .name _ _ | .literal _ _ => []
  | .unary _ _ operand => operand.literals
  | .binary _ _ left right => left.literals ++ right.literals
  | .call _ callee args => callee.literals ++ Node.literalsOf args
  | .member _ value _ => value.literals
  | .index _ value offset => value.literals ++ offset.literals
  | .instantiate _ template args => template.literals ++ Node.literalsOf args
  | .mixin _ args => Node.literalsOf args
  | .typeArg _ t => t.literals
  | .type _ _ _ args size => Node.literalsOf args ++ size.literals
  | .declare _ _ t value => t.literals ++ value.literals
  | .giveBack _ value | .evaluate _ value => value.literals
  | .block _ body | .program body => Node.literalsOf body
  | .function _ _ params result body =>
    Node.literalsOf params ++ result.literals ++ body.literals
  | .param _ t default => default.literals ++ t.literals

/-- The interpolated literals of a row of trees. -/
def Node.literalsOf : List Node → List Interpolation
  | [] => []
  | n :: rest => n.literals ++ Node.literalsOf rest

end

theorem Node.literalsOf_eq_flatMap (ns : List Node) :
    Node.literalsOf ns = ns.flatMap Node.literals := by
  induction ns with
  | nil => rfl
  | cons n rest ih => rw [literalsOf, ih, List.flatMap_cons]

@[simp] theorem Node.literalsOf_append (ns ns' : List Node) :
    Node.literalsOf (ns ++ ns') = Node.literalsOf ns ++ Node.literalsOf ns' := by
  simp [literalsOf_eq_flatMap]

mutual

/-- Moving a tree moves its interpolated literals. -/
@[simp] theorem Node.literals_mapLoc (f : Loc → Loc) :
    ∀ n : Node, (n.mapLoc f).literals = n.literals.map (Interpolation.mapLoc f)
  | .missing | .name .. | .literal .. | .interpolation _ => rfl
  | .unary _ _ n | .member _ n _ | .typeArg _ n | .giveBack _ n | .evaluate _ n =>
    n.literals_mapLoc f
  | .binary _ _ n n' | .index _ n n' | .declare _ _ n n' | .param _ n n' => by
    simp [mapLoc, literals, n.literals_mapLoc f, n'.literals_mapLoc f]
  | .call _ n args | .instantiate _ n args => by
    simp [mapLoc, literals, n.literals_mapLoc f, Node.literalsOf_mapLocs f args]
  | .mixin _ ns | .block _ ns | .program ns => Node.literalsOf_mapLocs f ns
  | .type _ _ _ args size => by
    simp [mapLoc, literals, Node.literalsOf_mapLocs f args, size.literals_mapLoc f]
  | .function _ _ params result body => by
    simp [mapLoc, literals, Node.literalsOf_mapLocs f params, result.literals_mapLoc f,
      body.literals_mapLoc f]

theorem Node.literalsOf_mapLocs (f : Loc → Loc) : ∀ ns : List Node,
    Node.literalsOf (Node.mapLocs f ns) = (Node.literalsOf ns).map (Interpolation.mapLoc f)
  | [] => rfl
  | n :: rest => by
    simp [mapLocs, literalsOf, n.literals_mapLoc f, Node.literalsOf_mapLocs f rest]

end

/-! ## Parts -/

namespace Node

/-- The nodes directly below a node. Where a part was left out there is the node `missing`. -/
def children : Node → List Node
  | missing | name .. | literal .. | interpolation _ => []
  | unary _ _ n | member _ n _ | typeArg _ n | giveBack _ n | evaluate _ n => [n]
  | binary _ _ n n' | index _ n n' | declare _ _ n n' | param _ n n' => [n, n']
  | call _ n args | instantiate _ n args => n :: args
  | mixin _ ns | block _ ns | program ns => ns
  | type _ _ _ args size => args ++ [size]
  | function _ _ params result body => params ++ [result, body]

/-- Except for those of parameters, the literals of a node are those of the nodes below it. -/
theorem literals_eq {n : Node} (hparam : ∀ ident t default, n ≠ param ident t default)
    (hliteral : ∀ i, n ≠ interpolation i) : n.literals = Node.literalsOf n.children := by
  cases n with
  | param ident t default => exact absurd rfl (hparam ident t default)
  | interpolation i => exact absurd rfl (hliteral i)
  | _ => simp [literals, children, literalsOf]

/-- A node of a tree: the tree itself, or a node below it. -/
inductive IsPartOf (part : Node) : Node → Prop
  | self : IsPartOf part part
  | inside {n child : Node} (hchild : child ∈ n.children) (h : IsPartOf part child) :
    IsPartOf part n

/-- No node of the tree is a parameter. -/
def HasNoParam (n : Node) : Prop := ∀ ident t default, ¬ (param ident t default).IsPartOf n

theorem HasNoParam.of_children {n : Node} (hself : ∀ ident t default, param ident t default ≠ n)
    (h : ∀ child ∈ n.children, child.HasNoParam) : n.HasNoParam := by
  intro ident t default hpart
  cases hpart with
  | self => exact hself ident t default rfl
  | inside hchild hpart => exact h _ hchild ident t default hpart

theorem hasNoParam_missing : missing.HasNoParam := .of_children nofun nofun

theorem loc?_mapLoc (f : Loc → Loc) (n : Node) : (n.mapLoc f).loc? = n.loc?.map f := by
  cases n <;> rfl

@[simp] theorem isType_mapLoc (f : Loc → Loc) (n : Node) : (n.mapLoc f).isType = n.isType := by
  cases n <;> rfl

@[simp] theorem isMissing_mapLoc (f : Loc → Loc) (n : Node) :
    (n.mapLoc f).isMissing = n.isMissing := by
  cases n <;> rfl

theorem sizeOf_lt_of_mem_children {n child : Node} (h : child ∈ n.children) :
    sizeOf child < sizeOf n := by
  have hlist (ns : List Node) (h : child ∈ ns) : sizeOf child < sizeOf ns :=
    List.sizeOf_lt_of_mem h
  cases n <;> simp only [children, List.mem_cons, List.mem_append, List.not_mem_nil, or_false] at h
  all_goals grind

/-- An interpolated literal of a tree is a node of it. -/
theorem isPartOf_of_mem_literals {i : Interpolation} {n : Node} (h : i ∈ n.literals) :
    (interpolation i).IsPartOf n := by
  by_cases hliteral : ∃ j, n = interpolation j
  · obtain ⟨j, rfl⟩ := hliteral
    rw [List.mem_singleton.1 h]
    exact .self
  obtain ⟨child, hchild, hi⟩ : ∃ child ∈ n.children, i ∈ child.literals := by
    by_cases hparam : ∃ ident t default, n = param ident t default
    · obtain ⟨ident, t, default, rfl⟩ := hparam
      rcases List.mem_append.1 h with h | h
      · exact ⟨default, by simp [children], h⟩
      · exact ⟨t, by simp [children], h⟩
    · rw [literals_eq (fun _ _ _ hn => hparam ⟨_, _, _, hn⟩) fun _ hn => hliteral ⟨_, hn⟩,
        literalsOf_eq_flatMap] at h
      exact List.mem_flatMap.1 h
  exact .inside hchild (isPartOf_of_mem_literals hi)
termination_by sizeOf n
decreasing_by exact sizeOf_lt_of_mem_children hchild

/-- Every location of a tree has a property, also those of the characters of its interpolated
literals. -/
structure Everywhere (P : Loc → Prop) (n : Node) : Prop where
  loc : ∀ part : Node, part.IsPartOf n → ∀ loc, part.loc? = some loc → P loc
  body : ∀ i, (interpolation i).IsPartOf n → ∀ loc ∈ i.body.positions, P loc

theorem Everywhere.child {P : Loc → Prop} {n child : Node} (h : n.Everywhere P)
    (hchild : child ∈ n.children) : child.Everywhere P :=
  ⟨fun part hpart => h.loc part (.inside hchild hpart), fun i hi => h.body i (.inside hchild hi)⟩

theorem Everywhere.imp {P Q : Loc → Prop} {n : Node} (h : n.Everywhere P)
    (hPQ : ∀ loc, P loc → Q loc) : n.Everywhere Q :=
  ⟨fun part hpart loc hloc => hPQ loc (h.loc part hpart loc hloc),
    fun i hi loc hloc => hPQ loc (h.body i hi loc hloc)⟩

/-- Maps of locations that agree on the locations of a tree move it alike. -/
theorem mapLoc_congr {f g : Loc → Loc} {n : Node} (h : n.Everywhere fun loc => f loc = g loc) :
    n.mapLoc f = n.mapLoc g := by
  have hself := h.loc n .self
  have hchildren : ∀ child ∈ n.children, child.mapLoc f = child.mapLoc g :=
    fun child hchild => mapLoc_congr (h.child hchild)
  cases n with
  | interpolation i =>
    rw [mapLoc, mapLoc, Interpolation.mapLoc, Interpolation.mapLoc, hself _ rfl,
      PlacedText.map_congr (h.body i .self)]
  | type loc =>
    clear h
    cases loc <;> simp_all [mapLoc, mapLocs_eq_map, children, loc?]
  | _ =>
    clear h
    simp_all [mapLoc, mapLocs_eq_map, children, loc?]
termination_by sizeOf n
decreasing_by exact sizeOf_lt_of_mem_children hchild

end Node

/-! ## Argument lists -/

mutual

/-- The nodes of a tree with an argument list: calls, templates with their arguments, mixins, and
templates of types. A node comes after those inside it, and otherwise the order is that of
rewriting. -/
def Node.applications : Node → List Node
  | .missing | .name _ _ | .literal _ _ | .interpolation _ => []
  | .unary _ _ operand => operand.applications
  | .binary _ _ left right => left.applications ++ right.applications
  | .call loc callee args =>
    callee.applications ++ (Node.applicationsOf args ++ [.call loc callee args])
  | .member _ value _ => value.applications
  | .index _ value offset => value.applications ++ offset.applications
  | .instantiate loc template args =>
    template.applications ++ (Node.applicationsOf args ++ [.instantiate loc template args])
  | .mixin loc args => Node.applicationsOf args ++ [.mixin loc args]
  | .typeArg _ t => t.applications
  | .type loc ident isTemplate args size =>
    Node.applicationsOf args ++
      ((if isTemplate then [.type loc ident isTemplate args size] else []) ++ size.applications)
  | .declare _ _ t value => t.applications ++ value.applications
  | .giveBack _ value | .evaluate _ value => value.applications
  | .block _ body | .program body => Node.applicationsOf body
  | .function _ _ params result body =>
    Node.applicationsOf params ++ (result.applications ++ body.applications)
  | .param _ t default => default.applications ++ t.applications

/-- The nodes of a row of trees with an argument list. -/
def Node.applicationsOf : List Node → List Node
  | [] => []
  | n :: rest => n.applications ++ Node.applicationsOf rest

end

@[simp] theorem Node.applicationsOf_singleton (n : Node) :
    Node.applicationsOf [n] = n.applications := List.append_nil _

@[simp] theorem Node.applicationsOf_append (ns ns' : List Node) :
    Node.applicationsOf (ns ++ ns') = Node.applicationsOf ns ++ Node.applicationsOf ns' := by
  induction ns with
  | nil => rfl
  | cons n rest ih => rw [List.cons_append, applicationsOf, applicationsOf, ih, List.append_assoc]

namespace Node

variable {part : Node}

mutual

/-- What has an argument list is a node of the tree. -/
theorem isPartOf_of_mem_applications : ∀ n : Node, part ∈ n.applications → part.IsPartOf n
  | .missing, h | .name _ _, h | .literal _ _, h | .interpolation _, h => absurd h List.not_mem_nil
  | .unary _ _ n, h | .member _ n _, h | .typeArg _ n, h | .giveBack _ n, h | .evaluate _ n, h =>
    .inside List.mem_cons_self (isPartOf_of_mem_applications n h)
  | .binary _ _ n n', h | .index _ n n', h | .declare _ _ n n', h => by
    rcases List.mem_append.1 h with h | h
    · exact .inside (by simp [children]) (isPartOf_of_mem_applications n h)
    · exact .inside (by simp [children]) (isPartOf_of_mem_applications n' h)
  | .param _ t default, h => by
    rcases List.mem_append.1 h with h | h
    · exact .inside (by simp [children]) (isPartOf_of_mem_applications default h)
    · exact .inside (by simp [children]) (isPartOf_of_mem_applications t h)
  | .call _ n args, h | .instantiate _ n args, h => by
    rcases List.mem_append.1 h with h | h
    · exact .inside List.mem_cons_self (isPartOf_of_mem_applications n h)
    rcases List.mem_append.1 h with h | h
    · obtain ⟨a, ha, h⟩ := exists_isPartOf_of_mem args h
      exact .inside (List.mem_cons_of_mem _ ha) h
    · rw [List.mem_singleton.1 h]
      exact .self
  | .mixin _ args, h => by
    rcases List.mem_append.1 h with h | h
    · obtain ⟨a, ha, h⟩ := exists_isPartOf_of_mem args h
      exact .inside ha h
    · rw [List.mem_singleton.1 h]
      exact .self
  | .type _ _ isTemplate args size, h => by
    rcases List.mem_append.1 h with h | h
    · obtain ⟨a, ha, h⟩ := exists_isPartOf_of_mem args h
      exact .inside (List.mem_append_left _ ha) h
    rcases List.mem_append.1 h with h | h
    · cases isTemplate with
      | false => cases h
      | true =>
        rw [List.mem_singleton.1 h]
        exact .self
    · exact .inside (by simp [children]) (isPartOf_of_mem_applications size h)
  | .block _ body, h | .program body, h => by
    obtain ⟨s, hs, h⟩ := exists_isPartOf_of_mem body h
    exact .inside hs h
  | .function _ _ params result body, h => by
    rcases List.mem_append.1 h with h | h
    · obtain ⟨p, hp, h⟩ := exists_isPartOf_of_mem params h
      exact .inside (List.mem_append_left _ hp) h
    rcases List.mem_append.1 h with h | h
    · exact .inside (by simp [children]) (isPartOf_of_mem_applications result h)
    · exact .inside (by simp [children]) (isPartOf_of_mem_applications body h)

theorem exists_isPartOf_of_mem :
    ∀ ns : List Node, part ∈ Node.applicationsOf ns → ∃ n ∈ ns, part.IsPartOf n
  | [], h => absurd h List.not_mem_nil
  | n :: rest, h => by
    rcases List.mem_append.1 h with h | h
    · exact ⟨n, List.mem_cons_self, isPartOf_of_mem_applications n h⟩
    · obtain ⟨m, hm, h⟩ := exists_isPartOf_of_mem rest h
      exact ⟨m, List.mem_cons_of_mem _ hm, h⟩

end

end Node

end Splice
