import Splice.Proofs.Parse.Trees
import Splice.Proofs.Printing.Types

/-!
# Parsing undoes printing

* `Node.constants`: the values of the literals in an expression or a type.
* `HasSort.hasText`: trees of the host grammar have a source form.
* `HasSort.isWritten`: the source form is read as the tree.
* `parse_write`: what was parsed and written is parsed again, up to places.
-/

namespace Splice

/-! ## The literals of a tree -/

mutual

/-- The values of the literals in an expression or a type. -/
def Node.constants : Node → List Constant
  | .literal _ value => [value]
  | .unary _ _ operand => operand.constants
  | .binary _ _ left right => left.constants ++ right.constants
  | .call _ callee args => callee.constants ++ Node.constantsOf args
  | .member _ value _ => value.constants
  | .index _ value offset => value.constants ++ offset.constants
  | .instantiate _ template args => template.constants ++ Node.constantsOf args
  | .mixin _ args => Node.constantsOf args
  | .typeArg _ t => t.constants
  | .type _ _ _ args size => Node.constantsOf args ++ size.constants
  | _ => []

/-- The values of the literals in a row of expressions or types. -/
def Node.constantsOf : List Node → List Constant
  | [] => []
  | n :: rest => n.constants ++ Node.constantsOf rest

end

mutual

theorem Node.constants_mapLoc (f : Loc → Loc) : ∀ n : Node, (n.mapLoc f).constants = n.constants
  | .unary _ _ operand => operand.constants_mapLoc f
  | .binary _ _ left right => congrArg₂ _ (left.constants_mapLoc f) (right.constants_mapLoc f)
  | .call _ callee args => congrArg₂ _ (callee.constants_mapLoc f) (constantsOf_mapLocs f args)
  | .member _ value _ => value.constants_mapLoc f
  | .index _ value offset => congrArg₂ _ (value.constants_mapLoc f) (offset.constants_mapLoc f)
  | .instantiate _ template args =>
    congrArg₂ _ (template.constants_mapLoc f) (constantsOf_mapLocs f args)
  | .mixin _ args => constantsOf_mapLocs f args
  | .typeArg _ t => t.constants_mapLoc f
  | .type _ _ _ args size => congrArg₂ _ (constantsOf_mapLocs f args) (size.constants_mapLoc f)
  | .missing | .name .. | .literal .. | .interpolation _ | .declare .. | .giveBack .. | .evaluate ..
  | .block .. | .function .. | .param .. | .program _ => rfl

theorem Node.constantsOf_mapLocs (f : Loc → Loc) :
    ∀ ns : List Node, constantsOf (mapLocs f ns) = constantsOf ns
  | [] => rfl
  | n :: rest => congrArg₂ _ (n.constants_mapLoc f) (constantsOf_mapLocs f rest)

end

/-- All numbers with a fraction are written with a point and without an exponent. -/
def ArePositional (constants : List Constant) : Prop :=
  ∀ x, .float x ∈ constants → x.IsPositional

theorem arePositional_append {cs cs' : List Constant} :
    ArePositional (cs ++ cs') ↔ ArePositional cs ∧ ArePositional cs' := by
  simp only [ArePositional, List.mem_append, or_imp, forall_and]

theorem ArePositional.of_mem {ns : List Node} (h : ArePositional (Node.constantsOf ns)) :
    ∀ n ∈ ns, ArePositional n.constants := by
  induction ns with
  | nil => nofun
  | cons n ns ih =>
    rw [Node.constantsOf, arePositional_append] at h
    exact List.forall_mem_cons.2 ⟨h.1, ih h.2⟩

/-! ## Trees of the host grammar have a source form -/

section Faults

variable {Q : Interpolation → Prop}

/-- A tree of some sort has a source form. -/
def HasText : NodeSort → Node → Prop
  | .expr, n | .templateArg, n => n.isType = false ∧ n.fault? = none
  | .type _, t => t.typeFault? = none
  | .optional sort, n => n = .missing ∨ HasText sort n
  | .statement, _ | .param, _ => True

theorem faults?_eq_none {ns : List Node} (h : ∀ n ∈ ns, n.fault? = none) :
    Node.faults? ns = none := by
  induction ns with
  | nil => rfl
  | cons n ns ih =>
    obtain ⟨hn, hns⟩ := List.forall_mem_cons.1 h
    rw [Node.faults?, hn, ih hns]
    rfl

theorem typeArgFaults?_eq_none {ns : List Node} (h : ∀ n ∈ ns, HasText .templateArg n) :
    Node.typeArgFaults? ns = none := by
  induction ns with
  | nil => rfl
  | cons n ns ih =>
    obtain ⟨⟨htype, hn⟩, hns⟩ := List.forall_mem_cons.1 h
    rw [Node.typeArgFaults?, htype, if_neg (by decide), hn, ih hns]
    rfl

/-- A name with its points is no reserved word. -/
theorem IsQualifiedName.ne_word {ident : Text} (h : IsQualifiedName ident) (k : Keyword) :
    k.word ≠ ident := by
  have hwords : ∀ k ∈ Keyword.all, Keyword.ofText? k.word ≠ none := by decide
  have hdots : ∀ k ∈ Keyword.all, ↑ '.' ∉ k.word := by decide
  obtain ⟨first, names, hfirst, -, rfl⟩ := h
  intro heq
  cases names with
  | nil =>
    rw [dotted, List.flatMap_nil, List.append_nil] at heq
    exact hwords k (Lexeme.mem_keywords k) (heq ▸ hfirst.notReserved)
  | cons n names =>
    refine hdots k (Lexeme.mem_keywords k) ?_
    rw [heq]
    simp [dotted]

/-- The name of a type that has a name with its points says nothing else. -/
theorem typeForm_of_isQualifiedName {ident : Text} (h : IsQualifiedName ident)
    (isTemplate : Bool) :
    TypeForm.of ident isTemplate = if isTemplate then .template else .plain := by
  have hne (x : CodePoint) (t : Text) (hx : isNameStart x = false) : ident ≠ x :: t := by
    obtain ⟨first, names, hfirst, -, rfl⟩ := h
    obtain ⟨c, rest, rfl, hc⟩ := hfirst.start
    rintro heq
    cases heq
    rw [hc] at hx
    cases hx
  have hqualifier : (Qualifier.all.any fun q => q.word = ident) = false :=
    List.any_eq_false.2 fun q _ => by simpa [Keyword.word] using h.ne_word (.qualifier q)
  have hpointer : ident ≠ TypeForm.pointerName := hne '*' [] (by decide)
  have harray : ident ≠ TypeForm.arrayName := hne '[' [']'] (by decide)
  rw [TypeForm.of, if_neg hpointer, if_neg harray, if_neg (by rw [hqualifier]; decide)]

/-- Trees of the host grammar have a source form. -/
theorem HasSort.hasText {sort : NodeSort} {n : Node} (h : HasSort Q sort n) : HasText sort n := by
  induction h with
  | name | literal | interpolation => exact ⟨rfl, rfl⟩
  | unary _ _ ih => exact ⟨rfl, ih.2⟩
  | @binary _ mark op _ _ hop _ _ ihleft ihright =>
    -- The marks of the table are all operators that the printer knows.
    have hall : ∀ p ∈ BinaryOp.marks, p.2.fault? = none := by decide
    have hknown : op.fault? = none := hall _ hop
    refine ⟨rfl, ?_⟩
    rw [Node.fault?, hknown, ihleft.2, ihright.2]
    rfl
  | call _ _ ih ihargs =>
    refine ⟨rfl, ?_⟩
    rw [Node.fault?, ih.2, faults?_eq_none fun a ha => (ihargs a ha).2]
    rfl
  | member _ _ ih => exact ⟨rfl, ih.2⟩
  | index _ _ ih ihoffset =>
    refine ⟨rfl, ?_⟩
    rw [Node.fault?, ih.2, ihoffset.2]
    rfl
  | instantiate _ _ ih ihargs =>
    refine ⟨rfl, ?_⟩
    rw [Node.fault?, ih.2, faults?_eq_none fun a ha => (ihargs a ha).2]
    rfl
  | mixin _ ihargs => exact ⟨rfl, faults?_eq_none fun a ha => (ihargs a ha).2⟩
  | exprArg _ ih => exact ih
  | typeArg _ ih => exact ⟨rfl, ih⟩
  | builtin b => cases b <;> rfl
  | qualified q _ ih => cases q <;> exact ih
  | named h =>
    rw [HasText, Node.typeFault?, typeForm_of_isQualifiedName h]
    rfl
  | template h _ ihargs =>
    rw [HasText, Node.typeFault?, typeForm_of_isQualifiedName h]
    exact typeArgFaults?_eq_none ihargs
  | pointer _ ih => exact ih
  | @array _ _ element size _ _ ih ihsize =>
    -- A slice has no size, and nothing is printed for it.
    have hsize : (if size.isMissing then none else size.fault?) = none := by
      rcases ihsize with rfl | ihsize
      · rfl
      · rw [ihsize.2, ite_self]
    have hform : TypeForm.of TypeForm.arrayName false = .array := by decide
    rw [HasText, Node.typeFault?, hform]
    simp only [hsize]
    exact ih
  | anyType _ ih => exact ih
  | missing => exact .inl rfl
  | present _ ih => exact .inr ih
  | declare | giveBack | evaluate | block | function | param => trivial

end Faults

/-! ## The source form is read as the tree -/

section Written

variable {Q : Interpolation → Prop}

open Nonterminal

theorem Starts.enclosed {t : Text} (h : Starts t) (strength minimum : Nat) :
    Starts (enclosed strength minimum t) := by
  unfold Splice.enclosed
  split
  · exact ⟨'(', _, rfl, by decide⟩
  · exact h

theorem Node.texts_eq_map (ns : List Node) : Node.texts ns = ns.map Node.text := by
  induction ns with
  | nil => rfl
  | cons n ns ih => rw [Node.texts, ih, List.map_cons]

/-- The source form of a tree of some sort is read as the tree. -/
def IsWritten : NodeSort → Node → Prop
  | .expr, n => ArePositional n.constants →
    Starts n.text ∧ ∀ s, Ends s → (ofStrength n.strength).Reads n n.text s
  | .templateArg, n => n.isType = false ∧ (ArePositional n.constants →
    Starts n.text ∧ ∀ s, Ends s → templateArg.Reads n n.text s)
  | .type reserved, t => ArePositional t.constants → IsTypeText reserved t t.typeText
  | .optional sort, n => n = .missing ∨ IsWritten sort n
  | .statement, _ | .param, _ => True

section Steps

variable {n : Node} {ns : List Node}

/-- An operand is read where it stands. -/
theorem IsWritten.reads_enclosed (h : IsWritten .expr n) (hn : ArePositional n.constants)
    {minimum : Nat} (hminimum : minimum ≤ postfixStrength) {s : Text} (hs : Ends s) :
    (ofStrength minimum).Reads n (enclosed n.strength minimum n.text) s :=
  Nonterminal.reads_enclosed hminimum (h hn).2 hs

/-- An expression is read where any expression may stand. -/
theorem IsWritten.reads_expr (h : IsWritten .expr n) (hn : ArePositional n.constants) {s : Text}
    (hs : Ends s) : expr.Reads n n.text s :=
  (((h hn).2 s hs).mono (Nat.zero_le _)).toExpr

/-- The arguments of a call. -/
theorem reads_writtenArgs (h : ∀ a ∈ ns, IsWritten .expr a)
    (hns : ArePositional (Node.constantsOf ns)) (s : Text) :
    args.ReadsBetween ns (commaSeparated (Node.texts ns)) s := by
  rw [Node.texts_eq_map]
  refine isList_args.readsBetween (fun a ha => ?_) s
  have ha' := hns.of_mem a ha
  exact ⟨(h a ha ha').1, fun s hs => (h a ha).reads_expr ha' hs⟩

/-- The arguments of a template. -/
theorem reads_writtenTemplateArgs (h : ∀ a ∈ ns, IsWritten .templateArg a)
    (hns : ArePositional (Node.constantsOf ns)) (s : Text) :
    templateArgs.ReadsBetween ns (commaSeparated (Node.texts ns)) s := by
  rw [Node.texts_eq_map]
  exact isList_templateArgs.readsBetween (fun a ha => (h a ha).2 (hns.of_mem a ha)) s

theorem Node.typeArgTexts_eq_texts (h : ∀ a ∈ ns, a.isType = false) :
    Node.typeArgTexts ns = Node.texts ns := by
  induction ns with
  | nil => rfl
  | cons n ns ih =>
    obtain ⟨hn, hns⟩ := List.forall_mem_cons.1 h
    rw [Node.typeArgTexts, Node.texts, ih hns, hn, if_neg (by decide)]

end Steps

theorem Interpolation.starts_text (i : Interpolation) : Starts i.text := by
  rw [text]
  cases i.kind <;> exact ⟨_, _, rfl, by decide⟩

theorem starts_unary {mark : Mark} {op : UnaryOp} (hop : (mark, op) ∈ UnaryOp.marks) (t : Text) :
    Starts (op.text ++ t) := by
  simp only [UnaryOp.marks, List.mem_cons, Prod.mk.injEq, List.not_mem_nil, or_false] at hop
  rcases hop with ⟨-, rfl⟩ | ⟨-, rfl⟩ <;> exact ⟨_, _, rfl, by decide⟩

theorem IsQualifiedName.starts {ident : Text} (h : IsQualifiedName ident) : Starts ident := by
  obtain ⟨first, names, hfirst, -, rfl⟩ := h
  exact hfirst.starts.append _

/-- The source form of a tree of the host grammar is read as the tree. -/
theorem HasSort.isWritten {sort : NodeSort} {n : Node} (h : HasSort Q sort n) :
    IsWritten sort n := by
  -- A subtree may not end where its text does, so the induction proves of each text that it is
  -- read in front of everything that ends it.
  induction h with
  | name h => exact fun _ => ⟨h.starts, fun s hs => reads_name h hs⟩
  -- This case alone needs the proviso: of the literals, a float may be printed in a form that is
  -- read as something else.
  | literal h =>
    intro hpositional
    have hfloat (x : Binary64) (hx : _ = Constant.float x) : ¬x.IsPointless :=
      (hpositional x (hx ▸ List.mem_singleton_self _)).not_isPointless
    exact ⟨starts_constant h hfloat, fun s hs => reads_literal h hfloat hs⟩
  | @interpolation i _ =>
    exact fun _ => ⟨i.starts_text, fun s _ => reads_interpolation i s⟩
  | @unary _ _ _ operand hop _ ih =>
    intro hpositional
    have hoperand := (ih hpositional).1.enclosed operand.strength UnaryOp.strength
    refine ⟨starts_unary hop _, fun s hs => ?_⟩
    exact reads_unary hop (ih.reads_enclosed hpositional (by decide) hs) hoperand
  | @binary _ _ op left right hop _ _ ihleft ihright =>
    intro hpositional
    obtain ⟨hleft, hright⟩ := arePositional_append.1 hpositional
    have hall : ∀ p ∈ BinaryOp.marks, p.2.leftMinimum ≤ postfixStrength ∧
        p.2.rightMinimum ≤ postfixStrength := by decide
    -- An operand is enclosed if its operator is weaker than the place it stands in.
    obtain ⟨hleftMinimum, hrightMinimum⟩ := hall _ hop
    refine ⟨?_, fun s hs => ?_⟩
    · rw [Node.text, List.append_assoc]
      exact ((ihleft hleft).1.enclosed _ _).append _
    · have hends (t : Text) : Ends (' ' :: t) := .of_mem (by decide) t
      exact reads_binary hop (ihleft.reads_enclosed hleft hleftMinimum (hends _))
        (ihright.reads_enclosed hright hrightMinimum hs) ((ihright hright).1.enclosed _ _)
  | call _ _ ih ihargs =>
    intro hpositional
    obtain ⟨hcallee, hargs⟩ := arePositional_append.1 hpositional
    rw [Node.text, List.append_assoc]
    refine ⟨((ih hcallee).1.enclosed _ _).append _, fun s hs => ?_⟩
    have hends (t : Text) : Ends ('(' :: t) := .of_mem (by decide) t
    exact reads_call (ih.reads_enclosed hcallee (Nat.le_refl 7) (hends _))
      (reads_writtenArgs ihargs hargs s)
  | member _ h ih =>
    intro hpositional
    refine ⟨((ih hpositional).1.enclosed _ _).append _, fun s hs => ?_⟩
    exact reads_member (ih.reads_enclosed hpositional (Nat.le_refl 7) (.dot h s)) h hs
  | index _ _ ih ihoffset =>
    intro hpositional
    obtain ⟨hvalue, hoffset⟩ := arePositional_append.1 hpositional
    rw [Node.text, List.append_assoc]
    refine ⟨((ih hvalue).1.enclosed _ _).append _, fun s hs => ?_⟩
    have hends (t : Text) : Ends ('[' :: t) := .of_mem (by decide) t
    exact reads_index (ih.reads_enclosed hvalue (Nat.le_refl 7) (hends _))
      (ihoffset.reads_expr hoffset (.of_mem (by decide) s))
  | instantiate _ _ ih ihargs =>
    intro hpositional
    obtain ⟨htemplate, hargs⟩ := arePositional_append.1 hpositional
    rw [Node.text, List.append_assoc]
    refine ⟨((ih htemplate).1.enclosed _ _).append _, fun s hs => ?_⟩
    have hends (t : Text) : Ends ('!' :: t) := .of_mem (by decide) t
    exact reads_instantiate (ih.reads_enclosed htemplate (Nat.le_refl 7) (hends _))
      (reads_writtenTemplateArgs ihargs hargs s)
  | mixin _ ihargs =>
    intro hpositional
    refine ⟨⟨'m', _, rfl, by decide⟩, fun s hs => ?_⟩
    exact reads_mixin (reads_writtenArgs ihargs hpositional s)
  | exprArg h ih =>
    refine ⟨h.hasText.1, fun hpositional => ⟨(ih hpositional).1, fun s hs => ?_⟩⟩
    exact reads_node (Production.mem_arguments (k := 8) rfl) (ih.reads_expr hpositional hs)
      fun _ _ hv => hv
  | typeArg _ ih =>
    refine ⟨rfl, fun hpositional => ⟨(ih hpositional).starts, fun s hs => ?_⟩⟩
    exact (ih hpositional).reads_typeArg hs
  | @builtin loc b =>
    intro _
    have htext :
        (Node.type (some loc) b.word false [] .missing).typeText = b.word := by
      cases b <;> rfl
    rw [htext]
    exact .of_base rfl (Keyword.starts (.builtin b)) fun s hs => .inl (reads_builtin b hs)
  | @qualified loc q inner _ ih =>
    intro hpositional
    have hinner : ArePositional inner.constants := by
      simpa [Node.constants, Node.constantsOf] using hpositional
    have htext : (Node.type (some loc) q.word false [inner] .missing).typeText =
        q.word ++ (↑ '(' :: inner.typeText ++ ([')'] : Text)) := by
      cases q <;> rfl
    rw [htext]
    refine .of_base rfl ((Keyword.starts (.qualifier q)).append _) fun s hs => .inr ?_
    exact reads_qualified q ((ih hinner).reads (.of_mem (by decide) s))
  -- A qualified name is none of the words that the printer treats in a way of their own.
  | @named loc ident h =>
    intro _
    have htext : (Node.type (some loc) ident false [] .missing).typeText = ident := by
      rw [Node.typeText, typeForm_of_isQualifiedName h]
      rfl
    rw [htext]
    exact .of_base rfl h.starts fun s hs => reads_named h hs
  | @template loc ident args h _ ihargs =>
    intro hpositional
    obtain ⟨hargs, -⟩ := arePositional_append.1 hpositional
    have htexts := Node.typeArgTexts_eq_texts fun a ha => (ihargs a ha).1
    have htext : (Node.type (some loc) ident true args .missing).typeText =
        ident ++ ↑ '!' :: (↑ '(' :: commaSeparated (Node.texts args) ++ ([')'] : Text)) := by
      rw [Node.typeText, typeForm_of_isQualifiedName h, htexts]
      simp
    rw [htext]
    refine .of_base rfl (h.starts.append _) fun s hs => ?_
    exact reads_template h (reads_writtenTemplateArgs ihargs hargs s)
  | @pointer _ _ target h ih =>
    intro hpositional
    have htarget : ArePositional target.constants := by
      simpa [Node.constants, Node.constantsOf] using hpositional
    obtain ⟨start, hstart⟩ := h.loc_of_type
    refine (ih htarget).snoc rfl ?_ (fun s => .of_mem (by decide) s) fun s _ => reads_star s
    rw [Node.withSuffix, Node.pointerType, hstart]
    rfl
  | @array loc _ element size h _ ih ihsize =>
    intro hpositional
    obtain ⟨helement, hsize⟩ := arePositional_append.1 hpositional
    have helement : ArePositional element.constants := by
      simpa [Node.constantsOf] using helement
    obtain ⟨start, hstart⟩ := h.loc_of_type
    have hends (t s : Text) : Ends (↑ '[' :: t ++ s) := .of_mem (by decide) _
    have htext : (Node.type (some loc) TypeForm.arrayName false [element] size).typeText =
        element.typeText ++ (↑ '[' :: size.text ++ ([']'] : Text)) := by
      rw [Node.typeText, List.append_assoc]
      rfl
    rw [htext]
    -- Both forms are suffixes, put behind the text of the element type.
    rcases ihsize with rfl | ihsize
    · refine (ih helement).snoc (x := .slice) rfl ?_ (hends _) fun s _ => reads_slice s
      rw [Node.withSuffix, Node.arrayType, hstart]
      rfl
    · refine (ih helement).snoc (x := .array size) rfl ?_ (hends _) fun s _ => ?_
      · rw [Node.withSuffix, Node.arrayType, hstart]
        rfl
      · exact reads_size (ihsize.reads_expr hsize (.of_mem (by decide) s))
  | anyType _ ih => exact fun hpositional => (ih hpositional).any
  | missing => exact .inl rfl
  | present _ ih => exact .inr ih
  | declare | giveBack | evaluate | block | function | param => trivial

end Written

/-! ## What is parsed again -/

section RoundTrip

variable {Q : Interpolation → Prop}

/-- The source form of an expression of the host grammar is parsed as the expression. -/
theorem parseExpr_writeExpr {e : Node} (h : HasSort Q .expr e)
    (hpositional : ArePositional e.constants) :
    ∃ text e', e.writeExpr = .ok text ∧ parseExpr text = .ok e' ∧ e'.bare = e.bare := by
  have hwrite : e.writeExpr = .ok e.text := by rw [Node.writeExpr, h.hasText.2]
  have hread := h.isWritten.reads_expr hpositional (s := []) trivial
  obtain ⟨e', hparse, hbare⟩ := @parse_of_reads .expr _ _ hread
  exact ⟨e.text, e', hwrite, hparse, hbare⟩

/-- The source form of a type of the host grammar is parsed as the type. -/
theorem parseType_writeType {t : Node} (h : HasSort Q (.type false) t)
    (hpositional : ArePositional t.constants) :
    ∃ text t', t.writeType = .ok text ∧ parseType text = .ok t' ∧ t'.bare = t.bare := by
  have hwrite : t.writeType = .ok t.typeText := by rw [Node.writeType, h.hasText]
  have hread := (h.isWritten hpositional).reads (s := []) trivial
  obtain ⟨t', hparse, hbare⟩ := @parse_of_reads .type _ _ hread
  exact ⟨t.typeText, t', hwrite, hparse, hbare⟩

/-- What was parsed and is written is parsed again, and differs in its places alone. -/
theorem parse_write (source : Text) :
    (∀ e, parseExpr source = .ok e → ArePositional e.constants →
      ∃ text e', e.writeExpr = .ok text ∧ parseExpr text = .ok e' ∧ e'.bare = e.bare) ∧
    ∀ t, parseType source = .ok t → ArePositional t.constants →
      ∃ text t', t.writeType = .ok text ∧ parseType text = .ok t' ∧ t'.bare = t.bare :=
  ⟨fun _ he => parseExpr_writeExpr (hasSort_of_parseExpr he),
    fun _ ht => parseType_writeType (hasSort_of_parseType ht)⟩

theorem parse_write_template :
    ∃ e t, parseExpr ['v', '!', '(', '1', '.', '5', ')'] = .ok e ∧ ArePositional e.constants ∧
      parseType ['v', '!', '(', '1', '.', '5', ')'] = .ok t ∧ ArePositional t.constants ∧
      (∃ text e', e.writeExpr = .ok text ∧ parseExpr text = .ok e' ∧ e'.bare = e.bare) ∧
      ∃ text t', t.writeType = .ok text ∧ parseType text = .ok t' ∧ t'.bare = t.bare := by
  let x := Binary64.ofDecimal false 15 (-1)
  have hx : x.write = (['1', '.', '5'] : Text) := by decide +kernel
  have hpositional : ArePositional [.float x] := by
    intro y hy
    obtain rfl : y = x := by simpa using hy
    exact ⟨['1'], ['5'], hx, nofun, nofun, by simp [Char.isDigit]⟩
  have hname : IsName ['v'] :=
    ⟨⟨'v', [], rfl, by decide⟩, List.forall_mem_singleton.2 rfl, by decide⟩
  have hqualified : IsQualifiedName ['v'] := ⟨['v'], [], hname, nofun, rfl⟩
  have hvalue : HasSort (fun _ => True) .templateArg (.literal .start (.float x)) :=
    .exprArg (.literal ⟨15, -1, rfl⟩)
  have hargs : ∀ a ∈ [Node.literal .start (.float x)], HasSort (fun _ => True) .templateArg a :=
    List.forall_mem_singleton.2 hvalue
  have hexpr : HasSort (fun _ => True) .expr
      (.instantiate .start (.name .start ['v']) [.literal .start (.float x)]) :=
    .instantiate (.name hname) hargs
  have htype : HasSort (fun _ => True) (.type false)
      (.type (some .start) ['v'] true [.literal .start (.float x)] .missing) :=
    .template hqualified hargs
  -- Both trees have the text, so it is parsed to trees that differ from them in their places.
  obtain ⟨text, e, htext, he, hbare⟩ := parseExpr_writeExpr hexpr hpositional
  obtain rfl : (['v', '!', '(', '1', '.', '5', ')'] : Text) = text := by
    rw [← Except.ok.inj htext]
    simp [Node.text, Node.texts, commaSeparated, Constant.text, hx, enclosed, Node.strength]
  obtain ⟨text, t, htext, ht, htbare⟩ := parseType_writeType htype hpositional
  obtain rfl : (['v', '!', '(', '1', '.', '5', ')'] : Text) = text := by
    rw [← Except.ok.inj htext, Node.typeText, typeForm_of_isQualifiedName hqualified]
    simp [Node.typeArgTexts, Node.isType, Node.kind, commaSeparated, Node.text, Constant.text, hx]
  have hconstants {n n' : Node} (h : n'.bare = n.bare) : n'.constants = n.constants := by
    rw [← n'.constants_mapLoc, ← n.constants_mapLoc]
    exact congrArg Node.constants h
  have hepositional : ArePositional e.constants := hconstants hbare ▸ hpositional
  have htpositional : ArePositional t.constants := hconstants htbare ▸ hpositional
  exact ⟨e, t, he, hepositional, ht, htpositional, (parse_write _).1 e he hepositional,
    (parse_write _).2 t ht htpositional⟩

end RoundTrip

end Splice
