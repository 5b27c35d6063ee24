import Mathlib.Algebra.Group.Nat.Defs
import Splice.Grammar.Reader

/-!
# Tables that agree with a grammar

What an automaton must satisfy to read every text that its grammar derives, and a test of it that
can be run on the tables. Nothing is assumed about how the tables were made.

* `Automaton.Admits`: the states along a right side, and the reduction at its end.
* `Automaton.Consistent`: the conditions.
* `Automaton.consistent_of_check`: tables that pass the test `Automaton.check` satisfy them.
-/

namespace Splice

/-! ## Entries of tables and members of sets -/

namespace PackedTable

variable {width bits n i j : Nat} {acc : List Nat}

theorem get_lt (t : PackedTable) (i : Nat) : t.get i < 2 ^ t.width :=
  Nat.mod_lt _ (Nat.two_pow_pos _)

/-- The first entries are read from the first bits. -/
theorem get_mod (h : (i + 1) * width ≤ n) :
    get ⟨width, bits % 2 ^ n⟩ i = get ⟨width, bits⟩ i := by
  refine Nat.eq_of_testBit_eq fun k => ?_
  simp only [get, Nat.testBit_mod_two_pow, Nat.testBit_shiftRight]
  by_cases hk : k < width
  · rw [Nat.add_one_mul] at h
    simp [show i * width + k < n by omega]
  · simp [hk]

/-- The later entries are read from the later bits. -/
theorem get_shiftRight : get ⟨width, bits >>> (n * width)⟩ i = get ⟨width, bits⟩ (n + i) := by
  simp only [get, ← Nat.shiftRight_add, Nat.add_mul]

theorem beq_zero_of_get (h : get ⟨width, bits⟩ i ≠ 0) : bits.beq 0 = false := by
  cases bits with
  | zero => simp [get] at h
  | succ => rfl

theorem mem_nonzeroFrom_of_mem {levels first : Nat} (h : i ∈ acc) :
    i ∈ nonzeroFrom width levels first bits acc := by
  induction levels generalizing first bits acc with
  | zero =>
    rw [nonzeroFrom]
    split
    · exact h
    · exact List.mem_cons_of_mem _ h
  | succ levels ih =>
    rw [nonzeroFrom]
    split
    · exact h
    · exact ih (ih h)

theorem mem_nonzeroFrom {levels first : Nat} (hbits : bits < 2 ^ (2 ^ levels * width))
    (h : get ⟨width, bits⟩ i ≠ 0) : first + i ∈ nonzeroFrom width levels first bits acc := by
  induction levels generalizing first bits i acc with
  | zero =>
    rw [nonzeroFrom, beq_zero_of_get h]
    rcases i with _ | i
    · exact List.mem_cons_self
    · rw [Nat.pow_zero] at hbits
      have hle : 1 * width ≤ (i + 1) * width := Nat.mul_le_mul_right _ (Nat.le_add_left 1 i)
      have hlt := Nat.lt_of_lt_of_le hbits (Nat.pow_le_pow_right (by decide) hle)
      exact absurd (by rw [get, Nat.shiftRight_eq_zero _ _ hlt, Nat.zero_mod]) h
  | succ levels ih =>
    rw [nonzeroFrom, beq_zero_of_get h]
    rcases Nat.lt_or_ge i (2 ^ levels) with hi | hi
    · refine mem_nonzeroFrom_of_mem (ih (Nat.mod_lt _ (Nat.two_pow_pos _)) ?_)
      rwa [get_mod (Nat.mul_le_mul_right _ hi)]
    · obtain ⟨j, rfl⟩ := Nat.exists_eq_add_of_le hi
      rw [← Nat.add_assoc]
      refine ih ?_ (by rwa [get_shiftRight])
      rw [Nat.shiftRight_eq_div_pow]
      refine Nat.div_lt_of_lt_mul ?_
      rwa [← Nat.pow_add, ← Nat.add_mul, ← Nat.mul_two, ← Nat.pow_succ]

/-- The entries that are not zero are found. -/
theorem mem_nonzero {t : PackedTable} {count : Nat} (hbits : t.bits < 2 ^ (count * t.width))
    (h : t.get i ≠ 0) : i ∈ t.nonzero count := by
  have hle : count * t.width ≤ 2 ^ (count.log2 + 1) * t.width :=
    Nat.mul_le_mul_right _ (Nat.le_of_lt Nat.lt_log2_self)
  have hlt := Nat.lt_of_lt_of_le hbits (Nat.pow_le_pow_right (by decide) hle)
  rw [nonzero, ← Nat.zero_add i]
  exact mem_nonzeroFrom hlt h

/-- A row of a table with `count` entries in each row. -/
def row (t : PackedTable) (count i : Nat) : PackedTable :=
  ⟨t.width, get ⟨count * t.width, t.bits⟩ i⟩

theorem get_row {t : PackedTable} {count : Nat} (hj : j < count) :
    (t.row count i).get j = t.get (i * count + j) := by
  have hrow : (t.row count i).get j = get ⟨t.width, t.bits >>> (i * count * t.width)⟩ j := by
    rw [Nat.mul_assoc]
    exact get_mod (Nat.mul_le_mul_right _ hj)
  rw [hrow, get_shiftRight]

theorem mem_nonzero_row {t : PackedTable} {count : Nat} (hj : j < count)
    (h : t.get (i * count + j) ≠ 0) : j ∈ (t.row count i).nonzero count :=
  mem_nonzero (get_lt _ _) (by rwa [get_row hj])

end PackedTable

/-- Every member of one set is in another. -/
def within (x y : Nat) : Bool := (x &&& y).beq x

theorem testBit_of_within {x y i : Nat} (h : within x y = true) (hi : x.testBit i = true) :
    y.testBit i = true := by
  have hxy := Nat.eq_of_beq_eq_true h
  rw [← hxy, Nat.testBit_and, Bool.and_eq_true] at hi
  exact hi.2

/-- A property holds of all numbers below a bound. -/
def allBelow (p : Nat → Bool) : Nat → Bool
  | 0 => true
  | n + 1 => p n && allBelow p n

theorem allBelow_iff {p : Nat → Bool} {n : Nat} :
    allBelow p n = true ↔ ∀ i < n, p i = true := by
  induction n with
  | zero => simp [allBelow]
  | succ n ih =>
    rw [allBelow, Bool.and_eq_true, ih]
    constructor
    · rintro ⟨hn, h⟩ i hi
      rcases Nat.lt_succ_iff_lt_or_eq.1 hi with hlt | rfl
      · exact h i hlt
      · exact hn
    · intro h
      exact ⟨h n (Nat.lt_succ_self n), fun i hi => h i (Nat.lt_succ_of_lt hi)⟩

namespace Automaton

/-! ## The conditions -/

/-- The number of the terminal for the end of a text. -/
def endCode : Nat := Terminal.endOfText.code

/-- From the state `q`, the symbols of a right side can be followed to a state with the property
`ends`. What can come `after` the whole right side can follow its last symbol. -/
def Admits (a : Automaton) (follow : PackedTable) (after ends : Nat → Prop) :
    (q : Nat) → List Nat → Prop
  | q, [] => ends q
  | q, s :: rest => ∃ next, a.step q s = some next ∧ Admits a follow after ends next rest ∧
      (a.grammar.terminals ≤ s → rest = [] → ∀ t, after t →
        (follow.get (a.place q s)).testBit t = true)

/-- The tables of an automaton agree with its grammar. The reading of the nonterminal at a position
of `goals` begins in the state of that number, and the entry of `follow` for a state and a
nonterminal is a set of terminals that can follow the nonterminal where it begins in the state. -/
structure Consistent (a : Automaton) (follow : PackedTable) (goals : List Nat) : Prop where
  /-- No transition leads to a state in which a reading begins. -/
  target {q s next : Nat} : q < a.states.length → s < a.grammar.symbols →
    a.step q s = some next → goals.length ≤ next ∧ next < a.states.length
  /-- A terminal that can be shifted calls for no reduction. -/
  shift {q t next : Nat} : q < a.states.length → t < a.grammar.terminals →
    t < a.grammar.symbols → a.step q t = some next → a.reduction q t = none
  /-- What can be shifted behind a nonterminal can follow it. -/
  behind {q n next t : Nat} : q < a.states.length → a.grammar.terminals ≤ n →
    n < a.grammar.symbols → a.step q n = some next → t < a.grammar.terminals →
    a.step next t ≠ none → (follow.get (a.place q n)).testBit t = true
  rows {q n next number : Nat} {r : Rule} : q < a.states.length → a.grammar.terminals ≤ n →
    n < a.grammar.symbols → a.step q n = some next → a.grammar.rules[number]? = some r →
    r.lhs = n → a.Admits follow
      (fun t => (follow.get (a.place q n)).testBit t = true)
      (fun last => ∀ t, (follow.get (a.place q n)).testBit t = true →
        a.reduction last t = some number) q r.rhs
  /-- A rule with an empty right side is reduced only before anything was read. -/
  empty {q t number : Nat} {r : Rule} : q < a.states.length → t < a.grammar.terminals →
    a.reduction q t = some number → a.grammar.rules[number]? = some r → r.rhs = [] →
    q < goals.length
  /-- The end of the text stands behind a goal, and only where the reading of this goal begins. -/
  ends {q n i : Nat} : q < a.states.length → goals[i]? = some n →
    ((∃ next, a.step q n = some next ∧ a.step next endCode ≠ none) ↔ q = i)
  goals_le : goals.length ≤ a.states.length

/-! ## The test -/

/-- The symbols over which a state can be left. -/
def outgoing (a : Automaton) (q : Nat) : List Nat :=
  (a.steps.row a.grammar.symbols q).nonzero a.grammar.symbols

/-- The terminals before which a state reduces. -/
def reducible (a : Automaton) (q : Nat) : List Nat :=
  (a.reductions.row a.grammar.terminals q).nonzero a.grammar.terminals

/-- The terminals before which a state reduces by a rule, as a set. -/
def reducing (a : Automaton) (q number : Nat) : Nat :=
  (a.reducible q).foldr (fun t set =>
    if (a.reductions.get (q * a.grammar.terminals + t)).beq (number + 1) then set ||| 1 <<< t
    else set) 0

/-- The test for `Admits`, where `after` are the terminals that can follow. -/
def admits (a : Automaton) (follow : PackedTable) (after number : Nat) : Nat → List Nat → Bool
  | q, [] => within after (a.reducing q number)
  | q, s :: rest =>
    match a.step q s with
    | none => false
    | some next =>
      (s.blt a.grammar.terminals || !rest.isEmpty ||
        within after (follow.get (a.place q s))) &&
      admits a follow after number next rest

/-- The test of the transition over a symbol. -/
def checkStep (a : Automaton) (follow : PackedTable) (goals : List Nat) (q s : Nat) : Bool :=
  match a.step q s with
  | none => true
  | some next =>
    goals.length.ble next && next.blt a.states.length &&
    if s.blt a.grammar.terminals then (a.reduction q s).isNone
    else
      let after := follow.get (a.place q s)
      ((a.outgoing next).all fun t => a.grammar.terminals.ble t || after.testBit t) &&
        (rulesOf a.grammar s).all fun (r, number) => a.admits follow after number q r.rhs

/-- The numbers of the rules with an empty right side. -/
def emptyRules (g : Grammar) : List (Rule × Nat) :=
  g.rules.zipIdx.filter fun (r, _) => r.rhs.isEmpty

/-- The test of the reductions in a state. -/
def checkEmpty (a : Automaton) (goals : List Nat) (q : Nat) : Bool :=
  q.blt goals.length || (a.reducible q).all fun t =>
    (emptyRules a.grammar).all fun (_, number) => a.reduction q t != some number

/-- The test of the end of the text behind a goal. -/
def checkEnd (a : Automaton) (q n i : Nat) : Bool :=
  match a.step q n with
  | none => !q.beq i
  | some next => (a.step next endCode).isSome == q.beq i

/-- The test of all tables. -/
def check (a : Automaton) (follow : PackedTable) (goals : List Nat) : Bool :=
  goals.length.ble a.states.length &&
  allBelow (fun q =>
    ((a.outgoing q).all fun s => a.checkStep follow goals q s) &&
    a.checkEmpty goals q && goals.zipIdx.all fun (n, i) => a.checkEnd q n i) a.states.length

theorem mem_outgoing {a : Automaton} {q s next : Nat} (hs : s < a.grammar.symbols)
    (h : a.step q s = some next) : s ∈ a.outgoing q :=
  PackedTable.mem_nonzero_row hs fun hzero => by
    rw [step, hzero] at h
    cases h

theorem mem_reducible {a : Automaton} {q t number : Nat} (ht : t < a.grammar.terminals)
    (h : a.reduction q t = some number) : t ∈ a.reducible q :=
  PackedTable.mem_nonzero_row ht fun hzero => by
    rw [reduction, hzero] at h
    cases h

theorem reduction_of_reducing {a : Automaton} {q number t : Nat}
    (h : (a.reducing q number).testBit t = true) : a.reduction q t = some number := by
  rw [reducing] at h
  generalize a.reducible q = ts at h
  induction ts with
  | nil => simp at h
  | cons t' ts ih =>
    rw [List.foldr_cons] at h
    split at h
    next hentry =>
      rw [Nat.testBit_or, Bool.or_eq_true, Nat.one_shiftLeft, Nat.testBit_two_pow,
        decide_eq_true_eq] at h
      rcases h with h | rfl
      · exact ih h
      · rw [reduction, Nat.eq_of_beq_eq_true hentry]
    next => exact ih h

theorem admits_of_test {a : Automaton} {follow : PackedTable} {after number q : Nat}
    {rhs : List Nat} (h : a.admits follow after number q rhs = true) :
    a.Admits follow (fun t => after.testBit t = true)
      (fun last => ∀ t, after.testBit t = true → a.reduction last t = some number) q rhs := by
  induction rhs generalizing q with
  | nil =>
    exact fun t ht => reduction_of_reducing (testBit_of_within h ht)
  | cons s rest ih =>
    rw [admits] at h
    split at h
    next => cases h
    next next hstep =>
      simp only [Bool.and_eq_true, Bool.or_eq_true] at h
      obtain ⟨hlast, hrest⟩ := h
      refine ⟨next, hstep, ih hrest, fun hs hnil t ht => ?_⟩
      subst hnil
      rcases hlast with (hlt | hne) | hsub
      · exact absurd (Nat.le_of_ble_eq_true hlt) (by omega)
      · simp at hne
      · exact testBit_of_within hsub ht

/-- The rules of a nonterminal are found by their numbers. -/
theorem mem_rulesOf {g : Grammar} {r : Rule} {number : Nat} (h : g.rules[number]? = some r) :
    (r, number) ∈ rulesOf g r.lhs := by
  refine List.mem_filter.2 ⟨?_, by simp⟩
  exact List.mk_mem_zipIdx_iff_getElem?.2 h

section Check

variable {a : Automaton} {follow : PackedTable} {goals : List Nat}

/-- What the test says of one state. -/
theorem checks_of_check (h : a.check follow goals = true) {q : Nat} (hq : q < a.states.length) :
    (∀ s ∈ a.outgoing q, a.checkStep follow goals q s = true) ∧ a.checkEmpty goals q = true ∧
      ∀ n i, goals[i]? = some n → a.checkEnd q n i = true := by
  have hstate := allBelow_iff.1 (Bool.and_eq_true_iff.1 h).2 q hq
  simp only [Bool.and_eq_true, List.all_eq_true] at hstate
  obtain ⟨⟨hsteps, hempty⟩, hends⟩ := hstate
  exact ⟨hsteps, hempty, fun n i hn => hends (n, i) (List.mk_mem_zipIdx_iff_getElem?.2 hn)⟩

theorem checkStep_of_check (h : a.check follow goals = true) {q s next : Nat}
    (hq : q < a.states.length) (hs : s < a.grammar.symbols) (hstep : a.step q s = some next) :
    a.checkStep follow goals q s = true :=
  (checks_of_check h hq).1 s (mem_outgoing hs hstep)

/-- What the test of a transition over a nonterminal says of what stands behind the nonterminal, and
of its rules. -/
theorem follows_of_checkStep {q n next : Nat} (h : a.checkStep follow goals q n = true)
    (hn : a.grammar.terminals ≤ n) (hstep : a.step q n = some next) :
    (∀ t ∈ a.outgoing next, t < a.grammar.terminals →
      (follow.get (a.place q n)).testBit t = true) ∧
    ∀ r number, (r, number) ∈ rulesOf a.grammar n →
      a.admits follow (follow.get (a.place q n)) number q r.rhs = true := by
  have hge : ¬n.blt a.grammar.terminals = true := fun hlt =>
    absurd (Nat.le_of_ble_eq_true hlt) (Nat.not_lt.2 hn)
  simp only [checkStep, hstep, Bool.and_eq_true, if_neg hge, List.all_eq_true,
    Bool.or_eq_true] at h
  obtain ⟨-, hbehind, hrules⟩ := h
  refine ⟨fun t ht hlt => ?_, fun r number hr => hrules (r, number) hr⟩
  exact (hbehind t ht).resolve_left fun hle =>
    absurd (Nat.le_of_ble_eq_true hle) (Nat.not_le.2 hlt)

/-- Tables that pass the test agree with the grammar. -/
theorem consistent_of_check (h : a.check follow goals = true) : a.Consistent follow goals where
  target hq hs hstep := by
    have hcheck := checkStep_of_check h hq hs hstep
    simp only [checkStep, hstep, Bool.and_eq_true] at hcheck
    exact ⟨Nat.le_of_ble_eq_true hcheck.1.1, Nat.le_of_ble_eq_true hcheck.1.2⟩
  shift hq ht hs hstep := by
    have hcheck := checkStep_of_check h hq hs hstep
    have hlt := Nat.ble_eq_true_of_le ht
    simp only [checkStep, hstep, Bool.and_eq_true, Nat.blt, hlt, if_true] at hcheck
    simpa using hcheck.2
  behind {_ n _ t} hq hn hs hstep ht hnext := by
    obtain ⟨hbehind, -⟩ := follows_of_checkStep (checkStep_of_check h hq hs hstep) hn hstep
    -- The test goes through the outgoing symbols, and a symbol with a step is one of them.
    obtain ⟨last, hlast⟩ := Option.ne_none_iff_exists'.1 hnext
    have hsymbol := Nat.lt_of_lt_of_le ht (Nat.le_trans hn (Nat.le_of_lt hs))
    exact hbehind t (mem_outgoing hsymbol hlast) ht
  rows hq hn hs hstep hr hlhs := by
    obtain ⟨-, hrules⟩ := follows_of_checkStep (checkStep_of_check h hq hs hstep) hn hstep
    subst hlhs
    exact admits_of_test (hrules _ _ (mem_rulesOf hr))
  empty {q t number r} hq ht hred hr hnil := by
    obtain ⟨-, hempty, -⟩ := checks_of_check h hq
    rw [checkEmpty, Bool.or_eq_true] at hempty
    rcases hempty with hlt | hall
    · exact Nat.le_of_ble_eq_true hlt
    · have hmem : (r, number) ∈ emptyRules a.grammar :=
        List.mem_filter.2 ⟨List.mk_mem_zipIdx_iff_getElem?.2 hr, by simp [hnil]⟩
      have hother := List.all_eq_true.1 (List.all_eq_true.1 hall t (mem_reducible ht hred)) _ hmem
      simp [hred] at hother
  ends {q n i} hq hn := by
    obtain ⟨-, -, hends⟩ := checks_of_check h hq
    have hend := hends n i hn
    rw [checkEnd] at hend
    split at hend
    next hstep =>
      rw [Bool.not_eq_true'] at hend
      simp [hstep, Nat.ne_of_beq_eq_false hend]
    next next hstep =>
      rw [beq_iff_eq] at hend
      simp only [hstep, Option.some.injEq, exists_eq_left', ← Option.isSome_iff_ne_none, hend]
      exact ⟨Nat.eq_of_beq_eq_true, fun h => h ▸ Nat.beq_refl q⟩
  goals_le := Nat.le_of_ble_eq_true (Bool.and_eq_true_iff.1 h).1

end Check

end Automaton

end Splice
