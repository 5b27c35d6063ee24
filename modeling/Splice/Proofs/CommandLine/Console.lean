import Mathlib.Data.List.Basic
import Splice.CommandLine.Console
import Splice.CommandLine.Json

/-!
# What is printed

Steps that all succeed print one behind the other, and a step that fails is the last one that
prints. A line is not printed only if there is a surrogate in it; there is none in the text of a
JSON value.

* `Console.mapM_of_ok`, `Console.mapM_of_error`: what a row of steps prints.
* `Text.encode?_eq_none`: the lines that are not printed.
* `Json.surrogate_notMem_text`: the text of a JSON value can always be printed.
-/

namespace Splice

/-! ## Steps that print -/

namespace Console

deriving instance DecidableEq for Console

variable {α β : Type} {f : α → Console β}

instance : LawfulMonad Console :=
  LawfulMonad.mk' Console
    (fun x => by cases hx : x.result <;> simp only [Functor.map, hx] <;> simp [← hx])
    (fun a f => by simp [bind, pure])
    (fun x f g => by
      cases hx : x.result with
      | error e => simp only [bind, hx]
      | ok a => cases hf : (f a).result <;> simp only [bind, hx, hf, String.append_assoc])

theorem result_bind_eq_ok {x : Console α} {b : β} :
    (x >>= f).result = .ok b ↔ ∃ a, x.result = .ok a ∧ (f a).result = .ok b := by
  cases hx : x.result <;> simp [bind, hx]

theorem result_bind_eq_error {x : Console α} {e : Failure} :
    (x >>= f).result = .error e ↔
      x.result = .error e ∨ ∃ a, x.result = .ok a ∧ (f a).result = .error e := by
  cases hx : x.result <;> simp [bind, hx]

/-- Steps that all succeed print one behind the other. -/
theorem mapM_of_ok {g : α → β} {as : List α} (h : ∀ a ∈ as, (f a).result = .ok (g a)) :
    as.mapM f = ⟨String.join (as.map fun a => (f a).stdout),
      String.join (as.map fun a => (f a).stderr), .ok (as.map g)⟩ := by
  induction as with
  | nil => rfl
  | cons a as ih =>
    obtain ⟨ha, has⟩ := List.forall_mem_cons.1 h
    rw [List.mapM_cons, bind_of_ok ha, ih has]
    simp [bind, pure]

/-- A step that fails is the last one that prints. -/
theorem mapM_of_error {before after : List α} {a : α} {e : Failure}
    (hbefore : ∀ b ∈ before, ∃ x, (f b).result = .ok x) (ha : (f a).result = .error e) :
    (before ++ a :: after).mapM f = ⟨String.join ((before ++ [a]).map fun a => (f a).stdout),
      String.join ((before ++ [a]).map fun a => (f a).stderr), .error e⟩ := by
  induction before with
  | nil => simp [bind_of_error ha]
  | cons b before ih =>
    obtain ⟨⟨x, hb⟩, hbefore⟩ := List.forall_mem_cons.1 hbefore
    rw [List.cons_append, List.mapM_cons, bind_of_ok hb, ih hbefore]
    simp [bind]

theorem exists_of_forM_eq_error {f : α → Console Unit} {as : List α} {e : Failure}
    (h : (as.forM f).result = .error e) : ∃ a ∈ as, (f a).result = .error e := by
  induction as with
  | nil => cases h
  | cons a as ih =>
    obtain ha | ⟨_, -, has⟩ := result_bind_eq_error.1 h
    · exact ⟨a, List.mem_cons_self, ha⟩
    · exact (ih has).imp fun _ ⟨hmem, hb⟩ => ⟨List.mem_cons_of_mem a hmem, hb⟩

end Console

/-! ## What can be encoded -/

namespace Text

@[simp] theorem surrogate_notMem_ofChars {i : Fin 0x800} {cs : List Char} :
    .surrogate i ∉ ofChars cs := by
  simp [mem_ofChars]

@[simp] theorem surrogate_notMem_ofString {i : Fin 0x800} {s : String} :
    .surrogate i ∉ ofString s := surrogate_notMem_ofChars

theorem ofString_inj {s t : String} : ofString s = ofString t ↔ s = t := by
  have hscalar : Function.Injective CodePoint.scalar := fun _ _ h => CodePoint.scalar.inj h
  rw [ofString, ofString, ofChars, ofChars, hscalar.list_map.eq_iff, String.toList_inj]

theorem encode?_eq_none {t : Text} : encode? t = none ↔ ∃ i, .surrogate i ∈ t := by
  rw [encode?, Option.map_eq_none_iff]
  induction t with
  | nil => simp
  | cons c t ih =>
    rw [List.mapM_cons]
    cases c with
    | surrogate i => simp [CodePoint.toChar?]
    | scalar c => cases h : t.mapM CodePoint.toChar? <;> simp [CodePoint.toChar?, ← ih, h]

end Text

namespace Json

theorem surrogate_notMem_escapeChar {i : Fin 0x800} (c : CodePoint) :
    .surrogate i ∉ escapeChar c := by
  have hunit (n : Nat) : .surrogate i ∉ escapeUnit n := by simp [escapeUnit, hexDigits]
  unfold escapeChar
  split
  all_goals first | simp; done | skip
  next =>
    dsimp only
    split
    next hascii =>
      intro hmem
      rw [← List.mem_singleton.1 hmem, CodePoint.toNat, CodePoint.firstSurrogate] at hascii
      omega
    next =>
      split
      next => exact hunit _
      next => simp [hunit]

theorem surrogate_notMem_quoted {i : Fin 0x800} (t : Text) : .surrogate i ∉ quoted t := by
  simp [quoted, surrogate_notMem_escapeChar]

mutual

/-- The text of a JSON value can be encoded, whatever texts there are in the value. -/
theorem surrogate_notMem_text {i : Fin 0x800} : ∀ json : Json, .surrogate i ∉ json.text
  | null => by simp [text]
  | number n => by simp [text]
  | string t => surrogate_notMem_quoted t
  | array items => by simp [text, surrogate_notMem_itemsText items]
  | object members => by simp [text, surrogate_notMem_membersText members]

theorem surrogate_notMem_itemsText {i : Fin 0x800} : ∀ items : List Json,
    .surrogate i ∉ itemsText items
  | [] => by simp [itemsText]
  | [item] => surrogate_notMem_text item
  | item :: next :: rest => by
    simp [itemsText, surrogate_notMem_text item, surrogate_notMem_itemsText (next :: rest)]

theorem surrogate_notMem_membersText {i : Fin 0x800} : ∀ members : List (Text × Json),
    .surrogate i ∉ membersText members
  | [] => by simp [membersText]
  | [(key, value)] => by
    simp [membersText, surrogate_notMem_quoted, surrogate_notMem_text value]
  | (key, value) :: next :: rest => by
    simp [membersText, surrogate_notMem_quoted, surrogate_notMem_text value,
      surrogate_notMem_membersText (next :: rest)]

end

end Json

end Splice
