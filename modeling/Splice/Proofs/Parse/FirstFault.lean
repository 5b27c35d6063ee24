import Splice.Proofs.Grammar.DecodingOrder
import Splice.Proofs.Lexing.Order
import Splice.Proofs.Literal.Items
import Splice.Proofs.Parse.Reported

/-!
# Which literal is reported

A program with literals that have no value is reported for one of them, at a place inside it. It is
the first one to be decoded. Literals are decoded as they stand in the source, except that the
default value of a parameter comes before its type, so a literal in the type is passed over for one
in the default value.

* `LiteralFault.isInside_of_mem`: a fault is placed at a character of its token.
* `Decodes.exists_first`: the token that a missing value is due to.
* `readSource_firstFault`: the report of a program with literals that have no value.
* `readSource_passesOver`: a source with a report that is not about its first such literal.
-/

namespace Splice

/-! ## Places of faults -/

section Places

variable {source : Text} {token : Token} {fault : LiteralFault}

/-- The fault is reported at a character of the token. -/
def LiteralFault.IsInside (source : Text) (token : Token) (fault : LiteralFault) : Prop :=
  ∃ message k, token.offset ≤ k ∧ k < token.offset + token.text.length ∧
    fault.report = .ok (message, Loc.ofOffset source k)

theorem LiteralFault.isInside_of_decoded (h : token.StandsIn source) {width : Nat}
    (hopens : token.OpensWith width) (hfault : token.decoded width = .error fault) :
    fault.IsInside source token := by
  unfold Token.decoded at hfault
  split at hfault
  next => cases hfault
  next escape loc hdecode =>
    cases hfault
    obtain ⟨b, hb, hplace⟩ := Escape.isFaultAt_of_decode hdecode
    have hlt : b < (token.inner width).length := hb.lt_length
    have hlength : width + b < token.text.length := by
      rw [Token.inner, List.length_dropLast, List.length_drop] at hlt
      omega
    rw [PlacedText.getElem?_positions_verbatim (Nat.le_of_lt hlt),
      ← h.ofOffset_inner hopens (by omega) (Nat.le_of_lt hlt)] at hplace
    cases hplace
    exact ⟨_, token.offset + (width + b), Nat.le_add_right _ _, Nat.add_lt_add_left hlength _, rfl⟩

/-- A literal that has a value as soon as its text has one fails only over its text. -/
theorem LiteralFault.isInside_of_bind {α : Type} {f : PlacedText → Decoded α} {quote : CodePoint}
    {width : Nat} (h : token.StandsIn source) (hquotes : token.terminal.Quotes quote width)
    (hf : ∀ body, f body ≠ .error fault) (hfault : token.decoded width >>= f = .error fault) :
    fault.IsInside source token := by
  refine isInside_of_decoded h (h.opensWith hquotes) ?_
  refine (bind_eq_error.1 hfault).resolve_right ?_
  rintro ⟨body, -, hnone⟩
  exact hf body hnone

/-- A fault is reported at a character of its token, unless it is an integer that is too long. -/
theorem LiteralFault.isInside_of_mem (h : token.StandsIn source)
    (hfault : fault ∈ token.terminal.faults token) (hint : token.terminal ≠ .intLit) :
    fault.IsInside source token := by
  -- Only the literals with quotes can be without a value at one of their characters; each is
  -- decoded behind its opening.
  cases hkind : token.terminal with
  | stringLit =>
    have hquotes : token.terminal.Quotes '"' 1 := hkind ▸ .string
    rw [hkind] at hfault
    refine isInside_of_bind h hquotes (fun body hnone => ?_) (Decoded.mem_faults.1 hfault)
    cases hnone
  | charLit =>
    have hquotes : token.terminal.Quotes '\'' 1 := hkind ▸ .character
    rw [hkind] at hfault
    rcases bind_eq_error.1 (Decoded.mem_faults.1 hfault) with hdecoded | ⟨body, -, hnone⟩
    · exact isInside_of_decoded h (h.opensWith hquotes) hdecoded
    · split at hnone
      next => cases hnone
      next =>
        cases hnone
        have hplace : Loc.ofOffset source token.offset = token.loc := h.ofOffset (Nat.zero_le _)
        have hpos := List.length_pos_of_ne_nil h.text_ne_nil
        have hreport : (LiteralFault.notOneCharacter token.loc).report = .ok (_, token.loc) := rfl
        rw [← hplace] at hreport ⊢
        exact ⟨_, token.offset, Nat.le_refl _, Nat.lt_add_of_pos_right hpos, hreport⟩
  | interpolatedLit =>
    have hquotes : token.terminal.Quotes '"' 2 := hkind ▸ .interpolated
    rw [hkind] at hfault
    refine isInside_of_bind h hquotes (fun body hnone => ?_) (Decoded.mem_faults.1 hfault)
    cases hnone
  | intLit => exact absurd hkind hint
  | _ =>
    rw [hkind] at hfault
    cases hfault

end Places

/-! ## The first fault -/

/-- A missing value is due to the first token that has none, in the order of decoding. -/
theorem Decodes.exists_first {rhs : List Symbol} {values : Symbol.Values rhs} {start : Loc}
    {tokens order : List Token} (h : Decodes rhs values start tokens order) {fault : LiteralFault}
    (hfault : (Symbol.Values.faults rhs values).head? = some fault) :
    ∃ before token after, order = before ++ token :: after ∧
      (∀ earlier ∈ before, earlier.terminal.hasValue earlier = true) ∧
      fault ∈ token.terminal.faults token := by
  rw [h.head_faults, List.head?_flatMap] at hfault
  obtain ⟨before, token, after, horder, htoken, hbefore⟩ := List.findSome?_eq_some_iff.1 hfault
  refine ⟨before, token, after, horder, fun earlier hearlier => ?_, List.mem_of_mem_head? htoken⟩
  exact Terminal.faults_eq_nil_iff.1 (List.head?_eq_none_iff.1 (hbefore earlier hearlier))

/-- The report is about a literal without a value, and starts at a character of the token. -/
structure Diagnostic.IsOverLiteral (d : Diagnostic) (file : Option Text) (source : Text)
    (token : Token) : Prop where
  code : d.code = some Fault.invalidLiteral.code
  phase : d.phase = some parserPhase
  severity : d.severity = "error"
  span : ∃ k, token.offset ≤ k ∧ k < token.offset + token.text.length ∧
    d.span = (Span.ofLoc? (some (Loc.ofOffset source k))).inFile file

section Reported

variable {source : Text}

theorem readSource_of_literal {fault : LiteralFault}
    (h : parseProgram source = .error (.literal fault)) (file : Option Text) :
    readSource file source = (fault.diagnostic file).map .error := by
  rw [readSource, h]

theorem readSource_of_isInside {token : Token} {fault : LiteralFault}
    (h : parseProgram source = .error (.literal fault)) (hinside : fault.IsInside source token)
    (file : Option Text) :
    ∃ d, readSource file source = .ok (.error d) ∧ d.IsOverLiteral file source token := by
  obtain ⟨message, k, hle, hlt, hreport⟩ := hinside
  rw [readSource_of_literal h, LiteralFault.diagnostic, hreport]
  exact ⟨_, rfl, ⟨rfl, rfl, rfl, k, hle, hlt, rfl⟩⟩

/-- A program with literals that have no value is reported for the first of them that is decoded.
One that stands before it belongs to the type of the parameter in whose default value it is. -/
theorem readSource_firstFault (file : Option Text) (hlexed : (Lexed.ofText source).fault = none)
    (hder : Derivable [.nonterminal .program] (Lexed.ofText source).tokens)
    (hshort : ∀ token ∈ (Lexed.ofText source).tokens, token.terminal = .intLit →
      token.text.length ≤ Constant.maxIntegerDigits)
    (hbad : ∃ token ∈ (Lexed.ofText source).tokens, token.terminal.hasValue token = false) :
    ∃ value start before token after d,
      Decodes [.nonterminal .program] (value, ()) start (Lexed.ofText source).tokens
        (before ++ token :: after) ∧
      (∀ earlier ∈ before, earlier.terminal.hasValue earlier = true) ∧
      token.terminal.hasValue token = false ∧
      (∀ early ∈ (Lexed.ofText source).tokens, early.terminal.hasValue early = false →
        early.offset < token.offset → Token.Shares (Lexed.ofText source).tokens early token) ∧
      readSource file source = .ok (.error d) ∧ d.IsOverLiteral file source token := by
  obtain ⟨⟨value, ⟨⟩⟩, start, hder⟩ := hder
  -- A derivation with a value has values for all its tokens, so the faulty one leaves it without.
  obtain ⟨fault, rfl⟩ : ∃ fault, value = .error fault := by
    cases hvalue : value with
    | error fault => exact ⟨fault, rfl⟩
    | ok p =>
      obtain ⟨token, htoken, hnone⟩ := hbad
      have hall := hder.allOk_eq
      rw [hvalue] at hall
      have := List.all_eq_true.1 hall.symm token htoken
      rw [hnone] at this
      cases this
  -- The faults of the derivation are those of its tokens in the order of decoding, which is not
  -- that of the text.
  obtain ⟨order, hdecodes⟩ := hder.exists_order
  obtain ⟨before, token, after, rfl, hbefore, hfault⟩ := hdecodes.exists_first rfl
  have hperm := hdecodes.perm
  have htoken : token ∈ (Lexed.ofText source).tokens :=
    hperm.subset (List.mem_append_right _ List.mem_cons_self)
  -- An integer without a value would be longer than the host allows.
  have hint : token.terminal ≠ .intLit := by
    intro hkind
    rw [hkind] at hfault
    have hlong := (Constant.ofInteger_eq_error (Decoded.mem_faults.1 hfault)).1
    exact absurd (hshort token htoken hkind) (Nat.not_le_of_lt hlong)
  have hnone : token.terminal.hasValue token = false := by
    by_contra hvalue
    rw [Terminal.faults_eq_nil_iff.2 (Bool.not_eq_false _ ▸ hvalue)] at hfault
    cases hfault
  have hinside := LiteralFault.isInside_of_mem (Lexed.standsIn_of_mem htoken) hfault hint
  have hparse := (@parse_eq_literal_iff .program source fault).2 ⟨hlexed, start, hder⟩
  obtain ⟨d, hread, hd⟩ := readSource_of_isInside hparse hinside file
  refine ⟨_, start, before, token, after, d, hdecodes, hbefore, hnone, ?_, hread, hd⟩
  intro early hearly hbadEarly hlt
  have hturns := hdecodes.pairwise (Lexed.pairwise_offset_lt source) (.singleton _)
    ⟨.name, [], 0, .start⟩ fun s hs hparam => by cases hs; cases hparam
  obtain ⟨-, hbehind, -⟩ := List.pairwise_append.1 hturns
  -- A token that stands before the reported one and is decoded behind it shares a parameter with
  -- it.
  rcases List.mem_append.1 (hperm.symm.subset hearly) with hmem | hmem
  · rw [hbefore early hmem] at hbadEarly
    cases hbadEarly
  rcases List.mem_cons.1 hmem with rfl | hmem
  · exact absurd hlt (Nat.lt_irrefl _)
  rcases (List.pairwise_cons.1 hbehind).1 early hmem with hlater | hshares
  · exact absurd hlt (Nat.lt_asymm hlater)
  · exact hshares.of_cons nofun nofun

end Reported

/-! ## A parameter with two faults -/

/-- A parameter whose type and default value have a literal without a value each,
`fn f(a: int["\q"] = "\z") {}`. -/
def faultyParam : Text :=
  ['f', 'n', ' ', 'f', '(', 'a', ':', ' ', 'i', 'n', 't', '[', '"', '\\', 'q', '"', ']', ' ', '=',
    ' ', '"', '\\', 'z', '"', ')', ' ', '{', '}']

/-- The function with the parameter, and behind it one more literal without a value,
` let x = "\w";`. -/
def faultyParamAndValue : Text :=
  faultyParam ++ ([' ', 'l', 'e', 't', ' ', 'x', ' ', '=', ' ', '"', '\\', 'w', '"', ';'] : Text)

theorem parseProgram_faulty :
    (parseProgram faultyParam).map (fun _ => ()) =
        .error (.literal (.escape (.unknown 'z') ⟨1, 22⟩)) ∧
      (parseProgram faultyParamAndValue).map (fun _ => ()) =
        .error (.literal (.escape (.unknown 'z') ⟨1, 22⟩)) := by decide +kernel

theorem parseProgram_faultyParam :
    parseProgram faultyParam = .error (.literal (.escape (.unknown 'z') ⟨1, 22⟩)) :=
  of_map_eq_error parseProgram_faulty.1

theorem parseProgram_faultyParamAndValue :
    parseProgram faultyParamAndValue = .error (.literal (.escape (.unknown 'z') ⟨1, 22⟩)) :=
  of_map_eq_error parseProgram_faulty.2

theorem derivable_of_literal {source : Text} {fault : LiteralFault}
    (h : parseProgram source = .error (.literal fault)) :
    (Lexed.ofText source).fault = none ∧
      Derivable [.nonterminal .program] (Lexed.ofText source).tokens := by
  obtain ⟨hlexed, start, hder⟩ := (@parse_eq_literal_iff .program source _).1 h
  exact ⟨hlexed, _, start, hder⟩

/-- The one in the default value is reported: another one in the parameter stands before it, and the
one behind the function is later. -/
theorem readSource_firstFault_param :
    let tokens := (Lexed.ofText faultyParamAndValue).tokens
    ((Lexed.ofText faultyParamAndValue).fault = none ∧ Derivable [.nonterminal .program] tokens ∧
      (∀ token ∈ tokens, token.terminal = .intLit →
        token.text.length ≤ Constant.maxIntegerDigits) ∧
      ∃ token ∈ tokens, token.terminal.hasValue token = false) ∧
    ∃ value start before token after d,
      Decodes [.nonterminal .program] (value, ()) start tokens (before ++ token :: after) ∧
      (∀ earlier ∈ before, earlier.terminal.hasValue earlier = true) ∧
      token.terminal.hasValue token = false ∧
      (∀ early ∈ tokens, early.terminal.hasValue early = false → early.offset < token.offset →
        Token.Shares tokens early token) ∧
      readSource none faultyParamAndValue = .ok (.error d) ∧
      d.IsOverLiteral none faultyParamAndValue token ∧
      ∃ later ∈ tokens, later.terminal.hasValue later = false ∧ token.offset < later.offset := by
  intro tokens
  obtain ⟨hlexed, hder⟩ := derivable_of_literal parseProgram_faultyParamAndValue
  have hshort : ∀ token ∈ tokens, token.terminal = .intLit →
      token.text.length ≤ Constant.maxIntegerDigits := by decide +kernel
  have hbad : ∃ token ∈ tokens, token.terminal.hasValue token = false := by decide +kernel
  refine ⟨⟨hlexed, hder, hshort, hbad⟩, ?_⟩
  obtain ⟨value, start, before, token, after, d, hdecodes, hbefore, hnone, hearly, hread, hd⟩ :=
    readSource_firstFault none hlexed hder hshort hbad
  refine ⟨value, start, before, token, after, d, hdecodes, hbefore, hnone, hearly, hread, hd,
    ⟨.stringLit, ['"', '\\', 'w', '"'], 37, ⟨1, 38⟩⟩, by decide +kernel, by decide +kernel, ?_⟩
  -- The report is at the `z`, which stands before the last literal.
  obtain ⟨k, hle, -, hspan⟩ := hd.span
  rw [readSource_of_literal parseProgram_faultyParamAndValue] at hread
  cases hread
  have hline : some (1 : Int) = some (Loc.ofOffset faultyParamAndValue k).line :=
    congrArg Span.line hspan
  have hcolumn : some (22 : Int) = some (Loc.ofOffset faultyParamAndValue k).column :=
    congrArg Span.column hspan
  refine Nat.lt_of_le_of_lt hle (Nat.lt_of_not_le fun hlast => ?_)
  have hplace := Loc.ofOffset_le faultyParamAndValue hlast
  rw [show Loc.ofOffset faultyParamAndValue 37 = ⟨1, 38⟩ by decide +kernel, Loc.le_def] at hplace
  rw [Option.some_inj] at hline hcolumn
  dsimp only at hplace
  omega

/-- It is not the one that stands first. -/
theorem readSource_passesOver :
    (Lexed.ofText faultyParam).fault = none ∧
    Derivable [.nonterminal .program] (Lexed.ofText faultyParam).tokens ∧
    (∀ token ∈ (Lexed.ofText faultyParam).tokens, token.terminal = .intLit →
      token.text.length ≤ Constant.maxIntegerDigits) ∧
    ∃ first ∈ (Lexed.ofText faultyParam).tokens, first.terminal.hasValue first = false ∧
      (∀ token ∈ (Lexed.ofText faultyParam).tokens, token.terminal.hasValue token = false →
        first.offset ≤ token.offset) ∧
      ∃ d, readSource none faultyParam = .ok (.error d) ∧
        ¬ d.IsOverLiteral none faultyParam first := by
  obtain ⟨hlexed, hder⟩ := derivable_of_literal parseProgram_faultyParam
  refine ⟨hlexed, hder, by decide +kernel,
    ⟨.stringLit, ['"', '\\', 'q', '"'], 12, ⟨1, 13⟩⟩, by decide +kernel, by decide +kernel,
    by decide +kernel, ?_⟩
  rw [readSource_of_literal parseProgram_faultyParam]
  refine ⟨_, rfl, fun hover => ?_⟩
  -- The report is at the default value, and all of the first literal is left of it.
  obtain ⟨k, hle, hlt, hspan⟩ := hover.span
  have hcolumn : some (22 : Int) = some (Loc.ofOffset faultyParam k).column :=
    congrArg Span.column hspan
  have hplaces : ∀ k < 16, (Loc.ofOffset faultyParam k).column < 22 := by decide +kernel
  have := hplaces k hlt
  rw [← Option.some.inj hcolumn] at this
  exact absurd this (Int.lt_irrefl _)

end Splice
