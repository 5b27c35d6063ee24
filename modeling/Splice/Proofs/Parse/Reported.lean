import Splice.Parse.Source
import Splice.Proofs.Grammar.Decoding
import Splice.Proofs.Grammar.Reading
import Splice.Proofs.Parse.Trees

/-!
# What becomes of texts that are not understood

Whatever is wrong with a text is reported by the parser that it is given to, with one exception: an
integer that is too long to be read is a failure.

* `Failure.IsOver`: a failure over an integer of a text.
* `Terminal.isLong_of_mem_faults`: no other literal is too long.
* `parsers_report`: what becomes of a source, of an expression and of a type.
* `host_expr_of_long`: the expression parser fails on an integer that is too long.
-/

namespace Splice

/-- The text has an integer that is too long, and the failure counts its digits. -/
def Failure.IsOver (source : Text) (failure : Failure) : Prop :=
  ∃ token ∈ (Lexed.ofText source).tokens, token.terminal = .intLit ∧
    Constant.maxIntegerDigits < token.text.length ∧ failure = .integerTooLong token.text.length

/-! ## Literals -/

section Literals

variable {token : Token} {count : Nat}

theorem Decoded.mem_faults {α : Type} {x : Decoded α} {fault : LiteralFault} :
    fault ∈ x.faults ↔ x = .error fault := by
  cases x with
  | ok => exact ⟨nofun, nofun⟩
  | error fault' => exact List.mem_singleton.trans ⟨fun h => h ▸ rfl, fun h => by cases h; rfl⟩

theorem Decoded.bind_ne_error {α β : Type} {x : Decoded α} {f : α → Decoded β}
    {fault : LiteralFault} (hx : x ≠ .error fault) (hf : ∀ a, f a ≠ .error fault) :
    (x >>= f) ≠ .error fault := by
  intro h
  obtain hfault | ⟨a, -, hfault⟩ := bind_eq_error.1 h
  · exact hx hfault
  · exact hf a hfault

theorem Token.decoded_ne_tooManyDigits {width : Nat} :
    token.decoded width ≠ .error (.tooManyDigits count) := by
  rw [decoded]
  split <;> nofun

theorem Constant.ofCharacter_ne_tooManyDigits :
    ofCharacter token ≠ .error (.tooManyDigits count) := by
  refine Decoded.bind_ne_error Token.decoded_ne_tooManyDigits fun body => ?_
  split <;> nofun

theorem Constant.ofInteger_eq_error {fault : LiteralFault} (h : ofInteger token = .error fault) :
    maxIntegerDigits < token.text.length ∧ fault = .tooManyDigits token.text.length := by
  rw [ofInteger] at h
  split at h
  next hlong => exact ⟨hlong, by cases h; rfl⟩
  next => cases h

theorem Terminal.isLong_of_mem_faults {t : Terminal} (h : .tooManyDigits count ∈ t.faults token) :
    t = .intLit ∧ Constant.maxIntegerDigits < token.text.length ∧ count = token.text.length := by
  cases t with
  | intLit =>
    obtain ⟨hlong, hcount⟩ := Constant.ofInteger_eq_error (Decoded.mem_faults.1 h)
    exact ⟨rfl, hlong, LiteralFault.tooManyDigits.inj hcount⟩
  | stringLit =>
    exact absurd (Decoded.mem_faults.1 h)
      (Decoded.bind_ne_error Token.decoded_ne_tooManyDigits nofun)
  | charLit => exact absurd (Decoded.mem_faults.1 h) Constant.ofCharacter_ne_tooManyDigits
  | interpolatedLit =>
    exact absurd (Decoded.mem_faults.1 h)
      (Decoded.bind_ne_error Token.decoded_ne_tooManyDigits nofun)
  | _ => cases h

/-- A literal of the text is too long if it has a fault that is not reported. -/
theorem LiteralFault.isOver_of_parse {goal : Goal} {source : Text} {fault : LiteralFault}
    (h : parse goal source = .error (.literal fault)) :
    (∃ message loc, fault.report = .ok (message, loc)) ∨
      ∃ failure, fault.report = .error failure ∧ failure.IsOver source := by
  cases fault with
  | escape fault loc => exact .inl ⟨_, _, rfl⟩
  | notOneCharacter loc => exact .inl ⟨_, _, rfl⟩
  | tooManyDigits count =>
    obtain ⟨-, start, hder⟩ := parse_eq_literal_iff.1 h
    obtain ⟨token, hmem, hfault⟩ := hder.exists_fault List.mem_cons_self
    obtain ⟨hkind, hlong, rfl⟩ := Terminal.isLong_of_mem_faults hfault
    exact .inr ⟨_, rfl, token, hmem, hkind, hlong, rfl⟩

end Literals

/-! ## Reports -/

/-- A program, one error of the parser, or a failure over an integer of the text. -/
inductive ReportsSource (source : Text) : Except Failure (Except Diagnostic Program) → Prop
  | program (p : Program) : ReportsSource source (.ok (.ok p))
  | diagnostic {d : Diagnostic} (hphase : d.phase = some parserPhase)
    (hseverity : d.severity = "error") : ReportsSource source (.ok (.error d))
  | failure {failure : Failure} (h : failure.IsOver source) : ReportsSource source (.error failure)

/-- An answer that has a node or an error, or a failure over an integer of the text. -/
inductive ReportsFragment (source : Text) : Except Failure FragmentParse → Prop
  | answer {p : FragmentParse} (h : p.node ≠ .missing ↔ p.error = none) :
    ReportsFragment source (.ok p)
  | failure {failure : Failure} (h : failure.IsOver source) :
    ReportsFragment source (.error failure)

section Reports

variable {source : Text}

theorem readSource_reports (file : Option Text) (source : Text) :
    ReportsSource source (readSource file source) := by
  rw [readSource]
  match h : parseProgram source with
  | .ok p => exact .program p
  | .error (.shape e) => exact .diagnostic rfl rfl
  | .error (.literal fault) =>
    obtain ⟨message, loc, hreport⟩ | ⟨failure, hreport, hover⟩ :=
      @LiteralFault.isOver_of_parse .program _ _ h
    · simp only [LiteralFault.diagnostic, hreport]
      exact .diagnostic rfl rfl
    · simp only [LiteralFault.diagnostic, hreport]
      exact .failure hover

theorem reportsFragment_ofResult {x : Except ParseError Node}
    (hnode : ∀ n, x = .ok n → n ≠ .missing)
    (hfault : ∀ fault, x = .error (.literal fault) →
      (∃ message loc, fault.report = .ok (message, loc)) ∨
        ∃ failure, fault.report = .error failure ∧ failure.IsOver source) :
    ReportsFragment source (FragmentParse.ofResult source x) := by
  match h : x with
  | .ok n => exact .answer ⟨fun _ => rfl, fun _ => hnode n rfl⟩
  | .error (.shape e) => exact .answer ⟨fun hnode => absurd rfl hnode, nofun⟩
  | .error (.literal fault) =>
    obtain ⟨message, loc, hreport⟩ | ⟨failure, hreport, hover⟩ := hfault fault rfl
    · simp only [FragmentParse.ofResult, hreport]
      exact .answer ⟨fun hnode => absurd rfl hnode, nofun⟩
    · simp only [FragmentParse.ofResult, hreport]
      exact .failure hover

/-- A source or a fragment is reported by the parser that it is given to, unless it has an integer
that is too long. -/
theorem parsers_report (file : Option Text) (source : Text) :
    ReportsSource source (readSource file source) ∧
      ReportsFragment source (FragmentParsers.host.expr source) ∧
      ReportsFragment source (FragmentParsers.host.type source) := by
  refine ⟨readSource_reports file source, reportsFragment_ofResult ?_ ?_,
    reportsFragment_ofResult ?_ ?_⟩
  · intro n hn hmissing
    have hpresent := (hasSort_of_parseExpr hn).not_missing
    rw [hmissing] at hpresent
    cases hpresent
  · exact fun fault => @LiteralFault.isOver_of_parse .expr _ _
  · intro n hn hmissing
    obtain ⟨loc, hloc⟩ := (hasSort_of_parseType hn).loc_of_type
    rw [hmissing] at hloc
    cases hloc
  · exact fun fault => @LiteralFault.isOver_of_parse .type _ _

/-! ## Integers that are too long -/

/-- The expression parser fails on an integer that is too long. -/
theorem host_expr_of_long {digits : Text} (hdigits : ∀ c ∈ digits, c.isDigit = true)
    (hlong : Constant.maxIntegerDigits < digits.length) :
    FragmentParsers.host.expr digits = .error (.integerTooLong digits.length) := by
  have hne : digits ≠ [] := List.ne_nil_of_length_pos (Nat.zero_lt_of_lt hlong)
  have hfirst := Lexeme.first?_integer (s := []) hne hdigits trivial
  have hvalue : Production.literal Constant.ofInteger ⟨.intLit, digits, 0, .start⟩ =
      .error (.tooManyDigits digits.length) := by
    rw [Production.literal, Constant.ofInteger, if_pos hlong]
    rfl
  have hshape := readShape_operand (Production.mem_operands (k := 8) rfl) rfl
    (Lexed.ofText_single hfirst)
  have hparse : parseExpr digits = .error (.literal (.tooManyDigits digits.length)) := by
    rw [parseExpr, parse, hshape.trans (congrArg Except.ok hvalue)]
    rfl
  rw [FragmentParsers.host]
  simp only [hparse]
  rfl

/-- An expression that is not reported: the shortest integer that is too long. -/
theorem host_expr_unreported :
    let source : Text := List.replicate 4301 '9'
    ¬ ∃ p, FragmentParsers.host.expr source = .ok p ∧ (p.node ≠ .missing ↔ p.error = none) := by
  intro source
  rintro ⟨p, hp, -⟩
  have hfails : FragmentParsers.host.expr source = .error (.integerTooLong source.length) := by
    refine host_expr_of_long (fun c hc => ?_) ?_
    · rw [List.eq_of_mem_replicate hc]
      decide
    · rw [List.length_replicate]
      decide
  rw [hfails] at hp
  cases hp

end Reports

end Splice
