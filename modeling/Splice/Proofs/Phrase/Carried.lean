import Splice.Proofs.Literal.Encoding
import Splice.Proofs.Literal.Tokens
import Splice.Proofs.Phrase.Parsed
import Splice.Proofs.Phrase.Parts

/-!
# Trees of tokens that stand elsewhere

Where the tokens of a tree stand elsewhere, the tree does so too, and is the same otherwise. Only an
interpolated literal has places inside its token, one for each character, so its text has to stay
together.

* `Token.carry`: a token that stands elsewhere.
* `Token.IsCarried`: the text of an interpolated literal stays together.
* `Phrase.carry`: a phrase whose tokens stand elsewhere.
* `parseProgram_carry`: a source with the tokens of another one.
-/

namespace Splice

variable {f : Loc → Loc} {g : Nat → Nat} {token : Token}

/-- A token that stands elsewhere. -/
def Token.carry (g : Nat → Nat) (f : Loc → Loc) (token : Token) : Token :=
  { token with offset := g token.offset, loc := f token.loc }

/-! ## Texts that stay together -/

/-- Behind every beginning of a text, the map is where the text has led. -/
def Loc.Follows (f : Loc → Loc) (loc : Loc) (t : Text) : Prop :=
  ∀ p, p <+: t → f (loc.advanceAll p) = (f loc).advanceAll p

theorem Loc.Follows.of_append {loc : Loc} {t t' : Text} (h : Follows f loc (t ++ t')) :
    Follows f (loc.advanceAll t) t' := by
  intro p hp
  rw [← advanceAll_append, h (t ++ p) ((List.prefix_append_right_inj t).2 hp), advanceAll_append,
    h t (List.prefix_append t t')]

theorem PlacedText.ofForms_carry {forms : Forms} {loc : Loc} (h : Loc.Follows f loc forms.source) :
    ofForms forms (f loc) = (ofForms forms loc).map f := by
  induction forms generalizing loc with
  | nil => rfl
  | cons form forms ih =>
    obtain ⟨w, c⟩ := form
    have hw : f (loc.advanceAll w) = (f loc).advanceAll w := h w (List.prefix_append w _)
    rw [ofForms, ofForms, ← hw, ih h.of_append]
    rfl

/-! ## Literals -/

/-- The text between the quotes of an interpolated literal stays together. -/
structure Token.IsCarried (f : Loc → Loc) (token : Token) : Prop where
  right : f (token.loc.right 2) = (f token.loc).right 2
  follows : Loc.Follows f (token.loc.right 2) (token.inner 2)

theorem Interpolation.ofToken_carry (h : token.IsCarried f) {i : Interpolation}
    (hi : ofToken token = .ok i) : ofToken (token.carry g f) = .ok (i.mapLoc f) := by
  obtain ⟨hloc, hkind, hbody⟩ := ofToken_eq_ok.1 hi
  obtain ⟨forms, hforms, hsource, hplaced⟩ := Escape.decode_eq_ok_iff.1 hbody
  have hfollows := h.follows
  rw [hsource] at hfollows
  have hright : (token.carry g f).loc.right 2 = f (token.loc.right 2) := h.right.symm
  refine ofToken_eq_ok.2 ⟨congrArg f hloc, hkind,
    Escape.decode_eq_ok_iff.2 ⟨forms, hforms, hsource, ?_⟩⟩
  rw [hright, PlacedText.ofForms_carry hfollows, ← hplaced]
  rfl

/-- The decoded text of a token does not depend on where it stands. -/
theorem Token.decoded_carry {width : Nat} {p : PlacedText} (h : token.decoded width = .ok p) :
    ∃ p', (token.carry g f).decoded width = .ok p' ∧ p'.text = p.text := by
  obtain ⟨forms, hforms, hsource, rfl⟩ := Escape.decode_eq_ok_iff.1 (decoded_eq_ok.1 h)
  refine ⟨_, decoded_eq_ok.2 (Escape.decode_eq_ok_iff.2 ⟨forms, hforms, hsource, rfl⟩), ?_⟩
  rw [PlacedText.text_ofForms, PlacedText.text_ofForms]

theorem Constant.ofString_carry {c : Constant} (h : ofString token = .ok c) :
    ofString (token.carry g f) = .ok c := by
  obtain ⟨body, hbody, h⟩ := bind_eq_ok.1 h
  obtain ⟨body', hbody', htext⟩ := Token.decoded_carry hbody
  cases h
  refine bind_eq_ok.2 ⟨body', hbody', ?_⟩
  rw [htext]
  rfl

theorem Constant.ofCharacter_carry {c : Constant} (h : ofCharacter token = .ok c) :
    ofCharacter (token.carry g f) = .ok c := by
  obtain ⟨body, hbody, h⟩ := bind_eq_ok.1 h
  obtain ⟨body', hbody', htext⟩ := Token.decoded_carry hbody
  refine bind_eq_ok.2 ⟨body', hbody', ?_⟩
  rw [htext]
  split at h
  · exact h
  · cases h

/-! ## Phrases -/

/-- Tokens that stand elsewhere. -/
def carryAll (g : Nat → Nat) (f : Loc → Loc) (ts : List Token) : List Token :=
  ts.map (Token.carry g f)

section Tokens

variable {ts us : List Token} {items : List (List Token)}

@[simp] theorem carryAll_nil : carryAll g f [] = [] := rfl

@[simp] theorem carryAll_cons :
    carryAll g f (token :: ts) = token.carry g f :: carryAll g f ts := rfl

@[simp] theorem carryAll_append :
    carryAll g f (ts ++ us) = carryAll g f ts ++ carryAll g f us :=
  List.map_append

@[simp] theorem startOf_carryAll (h : ts ≠ []) :
    startOf (carryAll g f ts) = f (startOf ts) := by
  obtain ⟨token, ts, rfl⟩ := List.exists_cons_of_ne_nil h
  rfl

theorem Tail.carry (h : Tail items ts) :
    Tail (items.map (carryAll g f)) (carryAll g f ts) := by
  induction h with
  | nil => exact .nil
  | cons hcomma _ ih =>
    rw [carryAll_cons, carryAll_append]
    exact .cons hcomma ih

theorem Row.carry (h : Row items ts) :
    Row (items.map (carryAll g f)) (carryAll g f ts) := by
  cases h with
  | nothing => exact .nothing
  | items h =>
    rw [carryAll_append]
    exact .items h.carry

theorem QualifiedName.carry {ident : Text} (h : QualifiedName ts ident) :
    QualifiedName (carryAll g f ts) ident := by
  induction h with
  | name h => exact .name h
  | dot _ hdot htoken ih =>
    rw [carryAll_append]
    exact .dot ih hdot htoken

end Tokens

/-- The texts of the interpolated literals among tokens stay together. -/
def Carried (f : Loc → Loc) (ts : List Token) : Prop :=
  ∀ token ∈ ts, token.terminal = .interpolatedLit → token.IsCarried f

section Literals

variable {ts us : List Token}

theorem carried_cons : Carried f (token :: ts) ↔
    (token.terminal = .interpolatedLit → token.IsCarried f) ∧ Carried f ts :=
  List.forall_mem_cons

theorem carried_append : Carried f (ts ++ us) ↔ Carried f ts ∧ Carried f us :=
  List.forall_mem_append

theorem Carried.of_infix (h : Carried f us) (hinside : ts <:+: us) : Carried f ts :=
  fun token htoken => h token (hinside.subset htoken)

end Literals

/-! ## Trees -/

/-- The phrases of a row that stand elsewhere. -/
def carryItems (g : Nat → Nat) (f : Loc → Loc) (ps : List (List Token × Node)) :
    List (List Token × Node) :=
  ps.map fun p => (carryAll g f p.1, p.2.mapLoc f)

section Items

variable {c : Category} {ps : List (List Token × Node)}

theorem fst_carryItems :
    (carryItems g f ps).map (·.1) = (ps.map (·.1)).map (carryAll g f) := by
  simp [carryItems, Function.comp_def]

theorem snd_carryItems : (carryItems g f ps).map (·.2) = Node.mapLocs f (ps.map (·.2)) := by
  simp [carryItems, Node.mapLocs_eq_map, Function.comp_def]

theorem carryItems_row {row : List Token} (h : Row (ps.map (·.1)) row) :
    Row ((carryItems g f ps).map (·.1)) (carryAll g f row) := by
  rw [fst_carryItems]
  exact h.carry

/-- The phrases of a row are phrases again where they stand elsewhere. -/
theorem carryItems_phrases {row : List Token} (hcarried : Carried f row)
    (hinside : ∀ item ∈ ps.map (·.1), item <:+: row)
    (h : ∀ p ∈ ps, Carried f p.1 → Phrase c (carryAll g f p.1) (p.2.mapLoc f)) :
    ∀ p ∈ carryItems g f ps, Phrase c p.1 p.2 := by
  refine List.forall_mem_map.2 fun p hp => h p hp ?_
  exact hcarried.of_infix (hinside p.1 (List.mem_map_of_mem hp))

end Items

@[simp] theorem Node.mapLoc_pointerType (t : Node) :
    t.pointerType.mapLoc f = (t.mapLoc f).pointerType := by
  rw [pointerType, pointerType, mapLoc, loc?_mapLoc, mapLocs, mapLocs, mapLoc]

@[simp] theorem Node.mapLoc_arrayType (t size : Node) :
    (t.arrayType size).mapLoc f = (t.mapLoc f).arrayType (size.mapLoc f) := by
  rw [arrayType, arrayType, mapLoc, loc?_mapLoc, mapLocs, mapLocs]

/-- A phrase whose tokens stand elsewhere has the tree that it had before, with its places changed
like theirs. -/
theorem Phrase.carry {c : Category} {ts : List Token} {n : Node}
    (h : Phrase c ts n) (hcarried : Carried f ts) :
    Phrase c (carryAll g f ts) (n.mapLoc f) := by
  -- A phrase that begins with another one stands where that one does.
  have start {c : Category} {ts : List Token} {n : Node} (h : Phrase c ts n)
      (hc : c.isOptional = false) : f (startOf ts) = startOf (carryAll g f ts) :=
    (startOf_carryAll (h.ne_nil hc)).symm
  -- Only tokens of interpolated strings depend on what `f` does to them, so the phrases of one
  -- other token come first; the others hand `hcarried` down to their parts.
  induction h with
  | name h => exact .name h
  | integer h hc => exact .integer h hc
  | fraction h hc => exact .fraction h hc
  | rawString h hc => exact .rawString h hc
  | isTrue h => exact .isTrue h
  | isFalse h => exact .isFalse h
  | null h => exact .null h
  | builtin h => exact .builtin h
  | string h hc => exact .string h (Constant.ofString_carry hc)
  | character h hc =>
    exact .character h (Constant.ofCharacter_carry hc)
  | interpolation h hi =>
    exact .interpolation h (Interpolation.ofToken_carry (hcarried _ List.mem_cons_self h) hi)
  | noAscription => exact .noAscription
  | noDefault => exact .noDefault
  | noResult => exact .noResult
  | nested _ ih => exact .nested (ih hcarried)
  | ofConjunction _ ih => exact .ofConjunction (ih hcarried)
  | ofComparison _ ih => exact .ofComparison (ih hcarried)
  | ofSum _ ih => exact .ofSum (ih hcarried)
  | ofTerm _ ih => exact .ofTerm (ih hcarried)
  | ofUnary _ ih => exact .ofUnary (ih hcarried)
  | ofSuffixed _ ih => exact .ofSuffixed (ih hcarried)
  | ofPrimary _ ih => exact .ofPrimary (ih hcarried)
  | exprArg _ ih => exact .exprArg (ih hcarried)
  | result _ ih => exact .result (ih hcarried)
  | typeArg h ih =>
    rw [Node.mapLoc, start h rfl]
    exact .typeArg (ih hcarried)
  | ascription hcolon _ ih => exact .ascription hcolon (ih (carried_cons.1 hcarried).2)
  | default hequal _ ih => exact .default hequal (ih (carried_cons.1 hcarried).2)
  | unary hop hmark _ ih => exact .unary hop hmark (ih (carried_cons.1 hcarried).2)
  | declare hword hident _ hequal _ hsemicolon iht ihe =>
    simp only [carried_cons, carried_append] at hcarried
    obtain ⟨-, -, ht, -, he, -⟩ := hcarried
    simp only [carryAll_cons, carryAll_append, carryAll_nil]
    exact .declare hword hident (iht ht) hequal (ihe he) hsemicolon
  | function hword hident hlparen _ hrow hrparen _ _ ihps iht ihbody =>
    simp only [carried_cons, carried_append] at hcarried
    obtain ⟨-, -, -, hparams, -, ht, hbody⟩ := hcarried
    simp only [carryAll_cons, carryAll_append, Node.mapLoc, ← snd_carryItems (g := g)]
    exact .function hword hident hlparen (carryItems_phrases hparams hrow.contains ihps)
      (carryItems_row hrow) hrparen (iht ht) (ihbody hbody)
  | giveBack hword _ hsemicolon ih =>
    simp only [carried_cons, carried_append] at hcarried
    simp only [carryAll_cons, carryAll_append, carryAll_nil]
    exact .giveBack hword (ih hcarried.2.1) hsemicolon
  | evaluate he hsemicolon ih =>
    rw [Node.mapLoc, start he rfl, carryAll_append]
    exact .evaluate (ih (carried_append.1 hcarried).1) hsemicolon
  -- The statements of a block are a list with no separator, so `carryItems_row` does not apply.
  | block hlbrace _ hrbrace ih =>
    simp only [carried_cons, carried_append] at hcarried
    have hflatten (ps : List (List Token × Node)) : carryAll g f (ps.map (·.1)).flatten =
        ((carryItems g f ps).map (·.1)).flatten := by
      rw [fst_carryItems, carryAll, List.map_flatten]
      rfl
    simp only [carryAll_cons, carryAll_append, carryAll_nil, Node.mapLoc, hflatten,
      ← snd_carryItems (g := g)]
    exact .block hlbrace
      (carryItems_phrases hcarried.2.1 (fun _ => List.infix_of_mem_flatten) ih) hrbrace
  | param hident hcolon _ _ iht ihe =>
    simp only [carried_cons, carried_append] at hcarried
    obtain ⟨-, -, ht, he⟩ := hcarried
    simp only [carryAll_cons, carryAll_append]
    exact .param hident hcolon (iht ht) (ihe he)
  | or hl hmark _ ihl ihr =>
    simp only [carried_cons, carried_append] at hcarried
    rw [Node.mapLoc, start hl rfl, carryAll_append, carryAll_cons]
    exact .or (ihl hcarried.1) hmark (ihr hcarried.2.2)
  | and hl hmark _ ihl ihr =>
    simp only [carried_cons, carried_append] at hcarried
    rw [Node.mapLoc, start hl rfl, carryAll_append, carryAll_cons]
    exact .and (ihl hcarried.1) hmark (ihr hcarried.2.2)
  | comparison hop hl hmark _ ihl ihr =>
    simp only [carried_cons, carried_append] at hcarried
    rw [Node.mapLoc, start hl rfl, carryAll_append, carryAll_cons]
    exact .comparison hop (ihl hcarried.1) hmark (ihr hcarried.2.2)
  | sum hop hl hmark _ ihl ihr =>
    simp only [carried_cons, carried_append] at hcarried
    rw [Node.mapLoc, start hl rfl, carryAll_append, carryAll_cons]
    exact .sum hop (ihl hcarried.1) hmark (ihr hcarried.2.2)
  | product hop hl hmark _ ihl ihr =>
    simp only [carried_cons, carried_append] at hcarried
    rw [Node.mapLoc, start hl rfl, carryAll_append, carryAll_cons]
    exact .product hop (ihl hcarried.1) hmark (ihr hcarried.2.2)
  | call he hlparen _ hrow hrparen ih ihas =>
    simp only [carried_cons, carried_append] at hcarried
    obtain ⟨he', -, hargs, -⟩ := hcarried
    simp only [carryAll_cons, carryAll_append, carryAll_nil, Node.mapLoc, start he rfl,
      ← snd_carryItems (g := g)]
    exact .call (ih he') hlparen (carryItems_phrases hargs hrow.contains ihas)
      (carryItems_row hrow) hrparen
  | member he hdot hident ih =>
    rw [Node.mapLoc, start he rfl, carryAll_append]
    exact .member (ih (carried_append.1 hcarried).1) hdot hident
  | index he hlbracket _ hrbracket ih ihi =>
    simp only [carried_cons, carried_append] at hcarried
    obtain ⟨he', -, hi, -⟩ := hcarried
    simp only [carryAll_cons, carryAll_append, carryAll_nil, Node.mapLoc, start he rfl]
    exact .index (ih he') hlbracket (ihi hi) hrbracket
  | instantiate he hbang hlparen _ hrow hrparen ih ihas =>
    simp only [carried_cons, carried_append] at hcarried
    obtain ⟨he', -, -, hargs, -⟩ := hcarried
    simp only [carryAll_cons, carryAll_append, carryAll_nil, Node.mapLoc, start he rfl,
      ← snd_carryItems (g := g)]
    exact .instantiate (ih he') hbang hlparen (carryItems_phrases hargs hrow.contains ihas)
      (carryItems_row hrow) hrparen
  | mixin hword hlparen _ hrow hrparen ihas =>
    simp only [carried_cons, carried_append] at hcarried
    obtain ⟨-, -, hargs, -⟩ := hcarried
    simp only [carryAll_cons, carryAll_append, carryAll_nil, Node.mapLoc,
      ← snd_carryItems (g := g)]
    exact .mixin hword hlparen (carryItems_phrases hargs hrow.contains ihas)
      (carryItems_row hrow) hrparen
  | parentheses hlparen _ hrparen ih =>
    simp only [carried_cons, carried_append] at hcarried
    simp only [carryAll_cons, carryAll_append, carryAll_nil]
    exact .parentheses hlparen (ih hcarried.2.1) hrparen
  | qualified hword hlparen _ hrparen ih =>
    simp only [carried_cons, carried_append] at hcarried
    simp only [carryAll_cons, carryAll_append, carryAll_nil]
    exact .qualified hword hlparen (ih hcarried.2.2.1) hrparen
  -- A named type takes its place from its name, which may have several tokens.
  | named h =>
    have hstart := startOf_carryAll (g := g) (f := f) h.ne_nil
    rw [Node.namedType, Node.mapLoc, Option.map_some, ← hstart]
    exact .named h.carry
  | template h hbang hlparen _ hrow hrparen ihas =>
    simp only [carried_cons, carried_append] at hcarried
    obtain ⟨-, -, -, hargs, -⟩ := hcarried
    have hstart := startOf_carryAll (g := g) (f := f) h.ne_nil
    simp only [carryAll_cons, carryAll_append, carryAll_nil, Node.templateType, Node.mapLoc,
      Option.map_some, ← hstart, ← snd_carryItems (g := g)]
    exact .template h.carry hbang hlparen (carryItems_phrases hargs hrow.contains ihas)
      (carryItems_row hrow) hrparen
  | pointer _ hstar ih =>
    rw [Node.mapLoc_pointerType, carryAll_append]
    exact .pointer (ih (carried_append.1 hcarried).1) hstar
  | slice _ hlbracket hrbracket ih =>
    rw [Node.mapLoc_arrayType, carryAll_append]
    exact .slice (ih (carried_append.1 hcarried).1) hlbracket hrbracket
  | array _ hlbracket _ hrbracket ih ihsize =>
    simp only [carried_cons, carried_append] at hcarried
    obtain ⟨ht, -, hsize, -⟩ := hcarried
    simp only [carryAll_cons, carryAll_append, carryAll_nil, Node.mapLoc_arrayType]
    exact .array (ih ht) hlbracket (ihsize hsize) hrbracket

/-- A source with the tokens of another one has its program. -/
theorem parseProgram_carry {source source' : Text} {p : Program} (h : parseProgram source = .ok p)
    (hcarried : Carried f (Lexed.ofText source).tokens)
    (hsource' : Lexed.ofText source' = ⟨carryAll g f (Lexed.ofText source).tokens, none⟩) :
    parseProgram source' = .ok (p.map (Node.mapLoc f)) := by
  obtain ⟨-, ss, htokens, rfl, hss⟩ := (@parse_eq_ok_iff_isTree .program source p).1 h
  refine (@parse_eq_ok_iff_isTree .program _ _).2 ?_
  rw [hsource', htokens]
  rw [htokens] at hcarried
  refine ⟨rfl, carryItems g f ss, ?_, ?_, ?_⟩
  · rw [fst_carryItems]
    exact List.map_flatten
  · rw [snd_carryItems, Node.mapLocs_eq_map]
  · exact carryItems_phrases hcarried (fun _ => List.infix_of_mem_flatten)
      fun s hs => (hss s hs).carry

end Splice
