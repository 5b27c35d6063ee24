import Splice.Proofs.Grammar.Parsing

/-!
# Trees and the values of literals

A production builds a value if there is one for each of its symbols. So whether a text that has the
right shape has a tree is settled by its literal tokens alone, whatever it is read as.

* `Production.isOrdered_of_mem`: all productions but one fail over the first fault of their symbols.
* `Production.keepsFaults_of_mem`: a production fails only over a fault of one of its symbols.
* `Production.isStrict_of_mem`: a production needs the values of all its symbols, and no more.
* `Derives.allOk_eq`: a derivation has values if its literal tokens have.
* `Derives.exists_fault`: what a derivation lacks a value for is a fault of one of its tokens.
* `parse_ne_literal_of_ok`: a text with a tree of one goal lacks no value as another goal.
-/

namespace Splice

/-- Whether a token of some kind has a value. Only literals may lack one. -/
def Terminal.hasValue : Terminal → Token → Bool
  | .intLit, token => (Constant.ofInteger token).isOk
  | .stringLit, token => (Constant.ofString token).isOk
  | .charLit, token => (Constant.ofCharacter token).isOk
  | .interpolatedLit, token => (Interpolation.ofToken token).isOk
  | _, _ => true

/-- Whether all symbols of a row have values. -/
def Symbol.Values.allOk : (rhs : List Symbol) → Symbol.Values rhs → Bool
  | [], _ => true
  | .terminal t :: rest, (token, later) => t.hasValue token && Symbol.Values.allOk rest later
  | .nonterminal _ :: rest, (value, later) => value.isOk && Symbol.Values.allOk rest later

/-! ## Faults -/

namespace Decoded

variable {α : Type}

/-- The fault for which there is no value, if there is none. -/
def faults : Decoded α → List LiteralFault
  | .ok _ => []
  | .error fault => [fault]

/-- There is a value if there are no faults, and otherwise one of them is why there is none. -/
def IsDueTo (faults : List LiteralFault) : Decoded α → Prop
  | .ok _ => faults = []
  | .error fault => fault ∈ faults

end Decoded

theorem Decoded.IsDueTo.of_head {α : Type} {x : Decoded α} {faults : List LiteralFault}
    (h : faults.head? = x.faults.head?) : x.IsDueTo faults := by
  cases x with
  | ok => exact List.head?_eq_none_iff.1 h
  | error => exact List.mem_of_mem_head? h

/-- The fault of a token of some kind. -/
def Terminal.faults : Terminal → Token → List LiteralFault
  | .intLit, token => (Constant.ofInteger token).faults
  | .stringLit, token => (Constant.ofString token).faults
  | .charLit, token => (Constant.ofCharacter token).faults
  | .interpolatedLit, token => (Interpolation.ofToken token).faults
  | _, _ => []

/-- The faults of all symbols of a row. -/
def Symbol.Values.faults : (rhs : List Symbol) → Symbol.Values rhs → List LiteralFault
  | [], _ => []
  | .terminal t :: rest, (token, later) => t.faults token ++ Symbol.Values.faults rest later
  | .nonterminal _ :: rest, (value, later) =>
    Decoded.faults value ++ Symbol.Values.faults rest later

theorem Decoded.faults_eq_nil_iff {α : Type} {x : Decoded α} :
    x.faults = [] ↔ x.isOk = true := by
  cases x <;> simp [faults, Except.isOk, Except.toBool]

theorem Terminal.faults_eq_nil_iff {t : Terminal} {token : Token} :
    t.faults token = [] ↔ t.hasValue token = true := by
  cases t <;> simp [faults, hasValue, Decoded.faults_eq_nil_iff]

theorem Symbol.Values.faults_eq_nil_iff {rhs : List Symbol} {values : Symbol.Values rhs} :
    faults rhs values = [] ↔ allOk rhs values = true := by
  induction rhs with
  | nil => simp [faults, allOk]
  | cons s rest ih =>
    cases s with
    | terminal t => simp [faults, allOk, Terminal.faults_eq_nil_iff, ih]
    | nonterminal n => simp [faults, allOk, Decoded.faults_eq_nil_iff, ih]

/-! ## Productions -/

namespace Production

/-- A production builds a value exactly if all its symbols have values. -/
def IsStrict (p : Production) : Prop :=
  ∀ start values, (p.build start values).isOk = Symbol.Values.allOk p.rhs values

/-- What a production builds is due to the faults of its symbols. -/
def KeepsFaults (p : Production) : Prop :=
  ∀ start values, (p.build start values).IsDueTo (Symbol.Values.faults p.rhs values)

theorem KeepsFaults.isStrict {p : Production} (h : p.KeepsFaults) : p.IsStrict := by
  intro start values
  have hdue := h start values
  have hnil : Symbol.Values.faults p.rhs values = [] ↔ _ := Symbol.Values.faults_eq_nil_iff
  cases hbuild : p.build start values with
  | ok v =>
    rw [hbuild] at hdue
    exact (hnil.1 hdue).symm
  | error fault =>
    rw [hbuild] at hdue
    refine (Bool.eq_false_iff.2 fun hok => ?_).symm
    rw [hnil.2 hok] at hdue
    cases hdue

/-- A production fails over the first fault of its symbols. -/
def IsOrdered (p : Production) : Prop :=
  ∀ start values, (Symbol.Values.faults p.rhs values).head? = (p.build start values).faults.head?

theorem IsOrdered.keepsFaults {p : Production} (h : p.IsOrdered) : p.KeepsFaults :=
  fun start values => .of_head (h start values)

/-- The production of a parameter with a default value, which is decoded before the type. -/
def defaulted : Production :=
  ⟨.param, [.terminal .name, .mark .colon, .nonterminal .type, .mark .equal, .nonterminal .expr],
    fun _ (ident, _, type, _, value, ()) => do
      let v ← value
      let t ← type
      return .param ident.text t v⟩

theorem defaulted_keepsFaults : defaulted.KeepsFaults := by
  rintro start ⟨_, _, _ | _, _, _ | _, ⟨⟩⟩
  · exact List.mem_cons_of_mem _ List.mem_cons_self
  all_goals exact .of_head rfl

theorem wholes_isOrdered : ∀ p ∈ wholes, p.IsOrdered := by
  simp only [wholes, List.forall_mem_cons]
  refine ⟨?_, ?_, ?_, nofun⟩
  all_goals rintro start ⟨_ | _, _, ⟨⟩⟩ <;> rfl

theorem statements_isOrdered : ∀ p ∈ statements, p.IsOrdered := by
  simp only [statements, List.forall_mem_cons]
  refine ⟨?_, ?_, ?_, ?_, ?_, ?_, ?_, ?_, ?_, ?_, ?_, ?_, ?_, ?_, ?_, ?_, nofun⟩
  · rintro start ⟨⟩; rfl
  · rintro start ⟨_ | _, ⟨⟩⟩ <;> rfl
  · rintro start ⟨_ | _, ⟨⟩⟩ <;> rfl
  · rintro start ⟨_ | _, _ | _, ⟨⟩⟩ <;> rfl
  iterate 5 · rintro start ⟨_ | _, ⟨⟩⟩ <;> rfl
  · rintro start ⟨_, _, _, _ | _, _, ⟨⟩⟩ <;> rfl
  · rintro start ⟨_, _, _, _ | _, _, _ | _, _, ⟨⟩⟩ <;> rfl
  · rintro start ⟨_, _, ⟨⟩⟩; rfl
  · rintro start ⟨_, _ | _, _, ⟨⟩⟩ <;> rfl
  · rintro start ⟨_ | _, _, ⟨⟩⟩ <;> rfl
  · rintro start ⟨_, _, ⟨⟩⟩; rfl
  · rintro start ⟨_, _ | _, _, ⟨⟩⟩ <;> rfl

theorem functions_isOrdered : ∀ p ∈ functions, p = defaulted ∨ p.IsOrdered := by
  simp only [functions, List.forall_mem_cons]
  refine ⟨.inr ?_, .inr ?_, .inr ?_, .inr ?_, .inr ?_, .inr ?_, .inr ?_, .inr ?_, .inr ?_, .inl rfl,
    nofun⟩
  · rintro start ⟨_, _, _, _, _ | _, ⟨⟩⟩ <;> rfl
  · rintro start ⟨_, _, _, _, _, _ | _, _ | _, ⟨⟩⟩ <;> rfl
  · rintro start ⟨_, _, _, _ | _, _, _ | _, ⟨⟩⟩ <;> rfl
  · rintro start ⟨_, _, _, _ | _, _, _, _ | _, _ | _, ⟨⟩⟩ <;> rfl
  · rintro start ⟨_ | _, ⟨⟩⟩ <;> rfl
  · rintro start ⟨_ | _, _ | _, ⟨⟩⟩ <;> rfl
  · rintro start ⟨_, _ | _, ⟨⟩⟩ <;> rfl
  · rintro start ⟨_ | _, _, _ | _, ⟨⟩⟩ <;> rfl
  · rintro start ⟨_, _, _ | _, ⟨⟩⟩ <;> rfl

theorem operators_isOrdered : ∀ p ∈ operators, p.IsOrdered := by
  simp only [operators, List.forall_mem_append, List.forall_mem_cons, List.forall_mem_map]
  refine ⟨⟨⟨⟨⟨⟨⟨⟨?_, ?_, ?_, ?_, ?_, ?_, nofun⟩, ?_⟩, ⟨?_, nofun⟩⟩, ?_⟩, ⟨?_, nofun⟩⟩, ?_⟩,
    ⟨?_, nofun⟩⟩, ?_⟩
  · rintro start ⟨_ | _, ⟨⟩⟩ <;> rfl
  · rintro start ⟨_ | _, ⟨⟩⟩ <;> rfl
  · rintro start ⟨_ | _, _, _ | _, ⟨⟩⟩ <;> rfl
  · rintro start ⟨_ | _, ⟨⟩⟩ <;> rfl
  · rintro start ⟨_ | _, _, _ | _, ⟨⟩⟩ <;> rfl
  · rintro start ⟨_ | _, ⟨⟩⟩ <;> rfl
  · rintro ⟨mark, op⟩ - start ⟨_ | _, _, _ | _, ⟨⟩⟩ <;> rfl
  · rintro start ⟨_ | _, ⟨⟩⟩ <;> rfl
  · rintro ⟨mark, op⟩ - start ⟨_ | _, _, _ | _, ⟨⟩⟩ <;> rfl
  · rintro start ⟨_ | _, ⟨⟩⟩ <;> rfl
  · rintro ⟨mark, op⟩ - start ⟨_ | _, _, _ | _, ⟨⟩⟩ <;> rfl
  · rintro start ⟨_ | _, ⟨⟩⟩ <;> rfl
  · rintro ⟨mark, op⟩ - start ⟨_, _ | _, ⟨⟩⟩ <;> rfl

theorem faults_literal (value : Token → Decoded Constant) (token : Token) :
    ((value token).faults ++ []).head? = (literal value token).faults.head? := by
  rw [literal]
  cases value token <;> rfl

theorem faults_interpolation (token : Token) :
    ((Interpolation.ofToken token).faults ++ []).head? =
      (Decoded.faults ((Interpolation.ofToken token).map Node.interpolation)).head? := by
  cases Interpolation.ofToken token <;> rfl

theorem operands_isOrdered : ∀ p ∈ operands, p.IsOrdered := by
  simp only [operands, List.forall_mem_cons]
  refine ⟨?_, ?_, ?_, ?_, ?_, ?_, ?_, ?_, ?_, ?_, ?_, ?_, ?_, ?_, ?_, ?_, ?_, ?_, ?_, ?_, nofun⟩
  · rintro start ⟨_ | _, ⟨⟩⟩ <;> rfl
  · rintro start ⟨_ | _, _, _, ⟨⟩⟩ <;> rfl
  · rintro start ⟨_ | _, _, _ | _, _, ⟨⟩⟩ <;> rfl
  · rintro start ⟨_ | _, _, _, ⟨⟩⟩ <;> rfl
  · rintro start ⟨_ | _, _, _ | _, _, ⟨⟩⟩ <;> rfl
  · rintro start ⟨_ | _, _, _, _, ⟨⟩⟩ <;> rfl
  · rintro start ⟨_ | _, _, _, _ | _, _, ⟨⟩⟩ <;> rfl
  · rintro start ⟨_, ⟨⟩⟩; rfl
  · rintro start ⟨token, ⟨⟩⟩
    exact faults_literal _ token
  · rintro start ⟨_, ⟨⟩⟩; rfl
  · rintro start ⟨token, ⟨⟩⟩
    exact faults_literal _ token
  · rintro start ⟨_, ⟨⟩⟩; rfl
  · rintro start ⟨token, ⟨⟩⟩
    exact faults_literal _ token
  · rintro start ⟨token, ⟨⟩⟩
    exact faults_interpolation token
  iterate 3 · rintro start ⟨_, ⟨⟩⟩; rfl
  · rintro start ⟨_, _, _, ⟨⟩⟩; rfl
  · rintro start ⟨_, _, _ | _, _, ⟨⟩⟩ <;> rfl
  · rintro start ⟨_, _ | _, _, ⟨⟩⟩ <;> rfl

theorem arguments_isOrdered : ∀ p ∈ arguments, p.IsOrdered := by
  simp only [arguments, List.forall_mem_cons]
  refine ⟨?_, ?_, ?_, ?_, ?_, ?_, ?_, ?_, ?_, ?_, nofun⟩
  iterate 2
    · rintro start ⟨_ | _, ⟨⟩⟩ <;> rfl
    · rintro start ⟨_ | _, _ | _, ⟨⟩⟩ <;> rfl
    · rintro start ⟨_, _ | _, ⟨⟩⟩ <;> rfl
    · rintro start ⟨_ | _, _, _ | _, ⟨⟩⟩ <;> rfl
  iterate 2 · rintro start ⟨_ | _, ⟨⟩⟩ <;> rfl

theorem types_isOrdered : ∀ p ∈ types, p.IsOrdered := by
  simp only [types, List.forall_mem_append, List.forall_mem_cons, List.forall_mem_map]
  refine ⟨⟨⟨⟨?_, ?_, ?_, ?_, ?_, ?_, ?_, ?_, ?_, ?_, ?_, nofun⟩, ?_⟩, ?_⟩,
    ⟨?_, ?_, ?_, ?_, ?_, ?_, ?_, ?_, ?_, nofun⟩⟩
  iterate 3
    · rintro start ⟨_ | _, ⟨⟩⟩ <;> rfl
    · rintro start ⟨_ | _, _ | _, ⟨⟩⟩ <;> rfl
  iterate 3 · rintro start ⟨_ | _, ⟨⟩⟩ <;> rfl
  · rintro start ⟨_ | _, _, _, _, ⟨⟩⟩ <;> rfl
  · rintro start ⟨_ | _, _, _, _ | _, _, ⟨⟩⟩ <;> rfl
  · rintro b - start ⟨_, ⟨⟩⟩; rfl
  · rintro q - start ⟨_, _, _ | _, _, ⟨⟩⟩ <;> rfl
  · rintro start ⟨_, ⟨⟩⟩; rfl
  · rintro start ⟨_, _ | _, ⟨⟩⟩ <;> rfl
  · rintro start ⟨_, _, ⟨⟩⟩; rfl
  · rintro start ⟨_ | _, _, _, ⟨⟩⟩ <;> rfl
  · rintro start ⟨_ | _, ⟨⟩⟩ <;> rfl
  · rintro start ⟨_ | _, _ | _, ⟨⟩⟩ <;> rfl
  · rintro start ⟨_, ⟨⟩⟩; rfl
  · rintro start ⟨_, _, ⟨⟩⟩; rfl
  · rintro start ⟨_, _ | _, _, ⟨⟩⟩ <;> rfl

/-- All productions but one decode from left to right. -/
theorem isOrdered_of_mem {p : Production} (h : p ∈ all) : p = defaulted ∨ p.IsOrdered := by
  simp only [all, List.mem_append] at h
  rcases h with (((((h | h) | h) | h) | h) | h) | h
  · exact .inr (wholes_isOrdered p h)
  · exact .inr (statements_isOrdered p h)
  · exact functions_isOrdered p h
  · exact .inr (operators_isOrdered p h)
  · exact .inr (operands_isOrdered p h)
  · exact .inr (arguments_isOrdered p h)
  · exact .inr (types_isOrdered p h)

/-- A production fails only over a fault of one of its symbols. -/
theorem keepsFaults_of_mem {p : Production} (h : p ∈ all) : p.KeepsFaults := by
  rcases isOrdered_of_mem h with rfl | hordered
  · exact defaulted_keepsFaults
  · exact hordered.keepsFaults

/-- Every production needs the values of all its symbols, and no more. -/
theorem isStrict_of_mem {p : Production} (h : p ∈ all) : p.IsStrict :=
  (keepsFaults_of_mem h).isStrict

end Production

/-! ## Derivations -/

/-- The values of a derivation are there exactly if those of its literal tokens are. -/
theorem Derives.allOk_eq {rhs : List Symbol} {values : Symbol.Values rhs} {start : Loc}
    {tokens : List Token} (h : Derives rhs values start tokens) :
    Symbol.Values.allOk rhs values = tokens.all fun token => token.terminal.hasValue token := by
  induction h with
  | nil => rfl
  | token token kind _ ih =>
    subst kind
    rw [Symbol.Values.allOk, ih, List.all_cons]
  | node mem _ _ ihbelow ihlater =>
    rw [Symbol.Values.allOk, Production.isStrict_of_mem mem, ihbelow, ihlater, List.all_append]

/-- What a derivation lacks a value for is a fault of one of its tokens. -/
theorem Derives.exists_fault {rhs : List Symbol} {values : Symbol.Values rhs} {start : Loc}
    {tokens : List Token} (h : Derives rhs values start tokens) {fault : LiteralFault}
    (hfault : fault ∈ Symbol.Values.faults rhs values) :
    ∃ token ∈ tokens, fault ∈ token.terminal.faults token := by
  induction h with
  | nil => cases hfault
  | token token kind _ ih =>
    subst kind
    rcases List.mem_append.1 hfault with hown | hlater
    · exact ⟨token, List.mem_cons_self, hown⟩
    · obtain ⟨later, hmem, hown⟩ := ih hlater
      exact ⟨later, List.mem_cons_of_mem _ hmem, hown⟩
  | @node p _ inner _ start _ _ _ mem _ _ ihbelow ihlater =>
    rcases List.mem_append.1 hfault with hbuilt | hlater
    · have hdue := Production.keepsFaults_of_mem mem start inner
      cases hbuild : p.build start inner with
      | ok v =>
        rw [hbuild] at hbuilt
        cases hbuilt
      | error fault' =>
        rw [hbuild] at hbuilt hdue
        obtain rfl := List.mem_singleton.1 hbuilt
        obtain ⟨token, hmem, hown⟩ := ihbelow hdue
        exact ⟨token, List.mem_append_left _ hmem, hown⟩
    · obtain ⟨token, hmem, hown⟩ := ihlater hlater
      exact ⟨token, List.mem_append_right _ hmem, hown⟩

/-- A text with a tree has no literal without a value, so no reading of it fails over one. -/
theorem parse_ne_literal_of_ok {goal goal' : Goal} {source : Text} {v : goal.body.Value}
    (h : parse goal source = .ok v) (fault : LiteralFault) :
    parse goal' source ≠ .error (.literal fault) := by
  intro hfault
  obtain ⟨-, start, hder⟩ := parse_eq_ok_iff.1 h
  obtain ⟨-, start', hder'⟩ := parse_eq_literal_iff.1 hfault
  have hvalues := hder.allOk_eq.trans hder'.allOk_eq.symm
  simp [Symbol.Values.allOk, Except.isOk, Except.toBool] at hvalues

end Splice
