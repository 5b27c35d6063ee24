import Mathlib.Data.List.Basic

/-!
# Steps that may fail

What the steps of a computation did, from what the whole of it came to.

* `bind_eq_ok`, `bind_eq_error`: two steps in a row.
* `mapM_eq_ok`, `mapM_eq_error`: a row of like steps.
* `forall_ok_or_first_error`: a row of like steps succeeds, or it has a first one that fails.
-/

namespace Splice

variable {ε α β : Type} {f : α → Except ε β}

theorem exists_of_map_eq_ok {x : Except ε α} {g : α → β} {b : β} (h : x.map g = .ok b) :
    ∃ a, x = .ok a ∧ b = g a := by
  cases x with
  | error => cases h
  | ok a =>
    cases h
    exact ⟨a, rfl, rfl⟩

theorem of_map_eq_error {x : Except ε α} {g : α → β} {e : ε} (h : x.map g = .error e) :
    x = .error e := by
  cases x with
  | error => exact congrArg Except.error (Except.error.inj h)
  | ok => cases h

theorem bind_eq_ok {x : Except ε α} {b : β} :
    x >>= f = .ok b ↔ ∃ a, x = .ok a ∧ f a = .ok b := by
  cases x <;> simp [bind, Except.bind]

theorem bind_eq_error {x : Except ε α} {e : ε} :
    x >>= f = .error e ↔ x = .error e ∨ ∃ a, x = .ok a ∧ f a = .error e := by
  cases x <;> simp [bind, Except.bind]

theorem mapM_eq_ok {g : α → β} {as : List α} (h : ∀ a ∈ as, f a = .ok (g a)) :
    as.mapM f = .ok (as.map g) := by
  induction as with
  | nil => rfl
  | cons a as ih =>
    obtain ⟨ha, has⟩ := List.forall_mem_cons.1 h
    rw [List.mapM_cons, ha, ih has]
    rfl

theorem mapM_eq_error {before after : List α} {a : α} {e : ε}
    (hbefore : ∀ b ∈ before, ∃ x, f b = .ok x) (ha : f a = .error e) :
    (before ++ a :: after).mapM f = .error e := by
  induction before with
  | nil => rw [List.nil_append, List.mapM_cons, ha]; rfl
  | cons b before ih =>
    obtain ⟨⟨x, hb⟩, hbefore⟩ := List.forall_mem_cons.1 hbefore
    rw [List.cons_append, List.mapM_cons, hb, ih hbefore]
    rfl

/-- A step either succeeds on all of a list or fails on a first element. -/
theorem forall_ok_or_first_error (f : α → Except ε β) (as : List α) :
    (∀ a ∈ as, ∃ x, f a = .ok x) ∨
      ∃ before a after e, as = before ++ a :: after ∧ (∀ b ∈ before, ∃ x, f b = .ok x) ∧
        f a = .error e := by
  induction as with
  | nil => exact .inl nofun
  | cons a as ih =>
    cases ha : f a with
    | error e => exact .inr ⟨[], a, as, e, rfl, nofun, ha⟩
    | ok x =>
      refine ih.imp (fun has => List.forall_mem_cons.2 ⟨⟨x, ha⟩, has⟩) ?_
      rintro ⟨before, a', after, e, rfl, hbefore, ha'⟩
      exact ⟨a :: before, a', after, e, rfl, List.forall_mem_cons.2 ⟨⟨x, ha⟩, hbefore⟩, ha'⟩

theorem exists_of_mapM_eq_error {as : List α} {e : ε} (h : as.mapM f = .error e) :
    ∃ a ∈ as, f a = .error e := by
  induction as with
  | nil => cases h
  | cons a as ih =>
    rw [List.mapM_cons] at h
    obtain ha | ⟨_, -, h⟩ := bind_eq_error.1 h
    · exact ⟨a, List.mem_cons_self, ha⟩
    obtain has | ⟨_, -, h⟩ := bind_eq_error.1 h
    · exact (ih has).imp fun _ ⟨hmem, hb⟩ => ⟨List.mem_cons_of_mem a hmem, hb⟩
    · cases h

end Splice
