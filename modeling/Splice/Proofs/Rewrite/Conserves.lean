import Mathlib.Data.List.Forall2
import Splice.Proofs.Body.Lowering
import Splice.Proofs.Syntax.Nodes
import Splice.Rewrite.Walk

/-!
# Walks that lose no literal

Every interpolated literal that a walk meets either stays and is reported, or goes and is recorded
with the arguments that took its place. `Walk.Conserves` says this of a walk; what a walk has
rebuilt so far, and the lowered literals that no site has recorded yet, stand in a `Ledger`.

* `Walk.Conserves.seq`, `Walk.Conserves.frame`: a second step goes on with the ledger of the first,
  and what stood in the ledger before does not matter.
* `Walk.Conserves.bind`, `Walk.Conserves.last`: both together.
-/

namespace Splice

instance : LawfulMonad Walk :=
  LawfulMonad.mk' Walk
    (fun x => Walk.ext_run fun log => by
      change x.andThen pure log = x.run log
      rw [Walk.andThen]
      rcases x.run log with ⟨log', _ | a⟩ <;> rfl)
    (fun _ _ => rfl)
    (fun x f g => Walk.ext_run fun log => by
      change (x >>= f).andThen g log = x.andThen (fun a => f a >>= g) log
      rw [Walk.andThen, Walk.andThen, Walk.run_bind, Walk.andThen]
      rcases x.run log with ⟨log', _ | a⟩ <;> rfl)

/-! ## What is counted -/

/-- The interpolated literals in an argument. -/
def Argument.literals : Argument → List Interpolation
  | .text _ => []
  | .value _ _ node => node.literals

/-- The interpolated literals in the arguments that lowered literals became. -/
def insertedLiterals (lowered : List (List Argument)) : List Interpolation :=
  lowered.flatten.flatMap Argument.literals

namespace Log

/-- What the lowered literals of all sites became. -/
def lowered (log : Log) : List (List Argument) := log.sites.flatMap Site.lowered

@[simp] theorem lowered_append (a b : Log) : (a ++ b).lowered = a.lowered ++ b.lowered := by
  simp [append_def, lowered]

@[simp] theorem diagnostics_append (a b : Log) :
    (a ++ b).diagnostics = a.diagnostics ++ b.diagnostics := rfl

end Log

@[simp] theorem insertedLiterals_nil : insertedLiterals [] = [] := rfl

@[simp] theorem insertedLiterals_append (a b : List (List Argument)) :
    insertedLiterals (a ++ b) = insertedLiterals a ++ insertedLiterals b := by
  simp [insertedLiterals]

/-! ## The judgement -/

/-- What a walk has done so far: the literals that stand in what was rebuilt, and what the literals
became that were lowered and that no site has recorded yet. -/
structure Ledger where
  literals : List Interpolation
  lowered : List (List Argument)

namespace Ledger

/-- Nothing has been done. -/
def none : Ledger := ⟨[], []⟩

/-- Both, one after the other. -/
def append (a b : Ledger) : Ledger := ⟨a.literals ++ b.literals, a.lowered ++ b.lowered⟩

instance : Append Ledger := ⟨append⟩

theorem append_def (a b : Ledger) :
    a ++ b = ⟨a.literals ++ b.literals, a.lowered ++ b.lowered⟩ := rfl

@[simp] theorem none_append (a : Ledger) : none ++ a = a := rfl

@[simp] theorem mk_append_mk (is is' : List Interpolation) (as as' : List (List Argument)) :
    (⟨is, as⟩ : Ledger) ++ ⟨is', as'⟩ = ⟨is ++ is', as ++ as'⟩ := rfl

end Ledger

namespace Walk

variable {α β : Type} {start : Ledger} {count count' : Nat} {view : α → Ledger} {view' : β → Ledger}

/-- A walk that starts with a ledger and meets some number of literals ends with the ledger that
its result shows: every literal that it leaves is reported, in the same order, and every literal
that it meets, or that comes out of one, is left or lowered. It fails only over an integer that is
too long. -/
def Conserves (start : Ledger) (count : Nat) (view : α → Ledger) (w : Walk α) : Prop :=
  match w.result with
  | .ok a =>
    (∃ left, (view a).literals = start.literals ++ left ∧
      List.Forall₂ Interpolation.Holds left w.log.diagnostics) ∧
    w.log.lowered.length + (view a).lowered.length + w.log.diagnostics.length +
        (insertedLiterals start.lowered).length =
      count + start.lowered.length + (insertedLiterals w.log.lowered).length +
        (insertedLiterals (view a).lowered).length
  | .error failure => failure.IsLongInteger

namespace Conserves

theorem pure {a : α} (h : view a = start) : Conserves start 0 view (Pure.pure a : Walk α) := by
  refine ⟨⟨[], by simp [h], .nil⟩, ?_⟩
  simp [log_pure, h, Log.lowered]

/-- A second step goes on with the ledger of the first. -/
theorem seq {x : Walk α} {f : α → Walk β} (hx : x.Conserves start count view)
    (hf : ∀ a, (f a).Conserves (view a) count' view') :
    (x >>= f).Conserves start (count + count') view' := by
  unfold Conserves at hx ⊢
  cases hresult : x.result with
  | error failure =>
    rw [hresult] at hx
    rw [bind_of_error hresult]
    exact hx
  | ok a =>
    rw [hresult] at hx
    obtain ⟨⟨left, hleft, hreported⟩, hcount⟩ := hx
    have hf := hf a
    unfold Conserves at hf
    rw [Walk.result_bind hresult, Walk.log_bind hresult]
    cases hlast : (f a).result with
    | error failure => rw [hlast] at hf; exact hf
    | ok b =>
      rw [hlast] at hf
      obtain ⟨⟨left', hleft', hreported'⟩, hcount'⟩ := hf
      refine ⟨⟨left ++ left', ?_, List.rel_append hreported hreported'⟩, ?_⟩
      · rw [hleft', hleft, List.append_assoc]
      · simp only [Log.lowered_append, Log.diagnostics_append, insertedLiterals_append,
          List.length_append]
        omega

/-- What stood in the ledger before does not matter. -/
theorem frame {x : Walk α} (h : x.Conserves .none count view) (start : Ledger) :
    x.Conserves start count fun a => start ++ view a := by
  unfold Conserves at h ⊢
  cases hresult : x.result with
  | error failure => rw [hresult] at h; exact h
  | ok a =>
    rw [hresult] at h
    obtain ⟨⟨left, hleft, hreported⟩, hcount⟩ := h
    simp only [Ledger.none, List.nil_append, List.length_nil, insertedLiterals_nil] at hleft hcount
    refine ⟨⟨left, ?_, hreported⟩, ?_⟩
    · simp only [Ledger.append_def, hleft]
    · simp only [Ledger.append_def, insertedLiterals_append, List.length_append]
      omega

theorem bind {x : Walk α} {f : α → Walk β} (hx : x.Conserves .none count view)
    (hf : ∀ a, (f a).Conserves (start ++ view a) count' view') :
    (x >>= f).Conserves start (count + count') view' := (hx.frame start).seq hf

/-- A last step that meets no literal. -/
theorem last {x : Walk α} {f : α → Walk β} (hx : x.Conserves .none count view)
    (hf : ∀ a, (f a).Conserves (start ++ view a) 0 view') :
    (x >>= f).Conserves start count view' := hx.bind hf

end Conserves

end Walk

end Splice
