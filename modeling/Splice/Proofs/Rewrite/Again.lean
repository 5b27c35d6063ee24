import Splice.Proofs.Body.Rejecting
import Splice.Proofs.Rewrite.Conserves

/-!
# Walking over a result again

A literal that a first walk reported and left is met again by a second walk. It is reported again,
unless it stands where it can be lowered now; the report that a literal is the whole text of a group
is the only one after which that can be so.

* `Diagnostic.isWholeGroup`: the report of a literal that is a whole group.
* `Walk.Ends`: what a walk comes to, and what it reports.
* `Walk.Redoes`: a second walk over what a first one came to.
-/

namespace Splice

/-! ## Reports of whole groups -/

/-- The report of a literal that is the whole text of a group of another one. -/
def Diagnostic.isWholeGroup (d : Diagnostic) : Bool :=
  d.code == some Fault.illegalContext.code &&
    [InterpolationKind.interspersed, .formatted].any fun kind =>
      d.message == Fault.illegalContext.message
        (Cause.misplaced kind "interpolation group").message

theorem Cause.message_misplaced (kind : InterpolationKind) (place : Text) :
    (misplaced kind place).message =
      kind.label ++ (" literal is not allowed as " ++ (place ++
        "; it may only appear directly in a call, template or mixin argument list")) := by
  simp only [message, List.append_assoc]

theorem InterpolationKind.head?_label (kind : InterpolationKind) :
    kind.label.head? = some kind.letter := by
  cases kind <;> decide

theorem InterpolationKind.letter_inj {kind kind' : InterpolationKind}
    (h : kind.letter = kind'.letter) : kind = kind' := by
  cases kind <;> cases kind' <;> first | rfl | cases h

theorem Cause.misplaced_message_inj {kind kind' : InterpolationKind} {place place' : Text}
    (h : (misplaced kind place).message = (misplaced kind' place').message) : place = place' := by
  rw [message_misplaced, message_misplaced] at h
  have hletter := congrArg List.head? h
  rw [List.head?_append, kind.head?_label, Option.some_or, List.head?_append, kind'.head?_label,
    Option.some_or, Option.some_inj] at hletter
  rw [InterpolationKind.letter_inj hletter, List.append_cancel_left_eq, List.append_cancel_left_eq,
    List.append_cancel_right_eq] at h
  exact h

namespace Interpolation

theorem isWholeGroup_misplaced (i : Interpolation) (file : Option Text) (place : Text) :
    (i.diagnostic file { cause := .misplaced i.kind place }).isWholeGroup ↔
      place = "interpolation group" := by
  constructor
  · intro h
    rw [Diagnostic.isWholeGroup, Bool.and_eq_true, List.any_eq_true] at h
    obtain ⟨-, kind, -, hmessage⟩ := h
    exact Cause.misplaced_message_inj (List.append_cancel_left (eq_of_beq hmessage))
  · rintro rfl
    cases hkind : i.kind <;>
      simp [Diagnostic.isWholeGroup, diagnostic, Diagnostic.ofFault, Cause.fault]

end Interpolation

/-! ## What a walk comes to -/

namespace Walk

variable {α β γ : Type} {P : α → List Diagnostic → Prop} {R : β → List Diagnostic → Prop}

theorem exists_of_result_bind {x : Walk α} {f : α → Walk β} {b : β}
    (h : (x >>= f).result = .ok b) : ∃ a, x.result = .ok a ∧ (f a).result = .ok b := by
  cases hresult : x.result with
  | error failure =>
    rw [bind_of_error hresult] at h
    cases h
  | ok a => exact ⟨a, rfl, (result_bind hresult).symm.trans h⟩

/-- Unless the walk fails, its result and what it reports have a property. -/
def Ends (P : α → List Diagnostic → Prop) (w : Walk α) : Prop :=
  ∀ a, w.result = .ok a → P a w.log.diagnostics

namespace Ends

theorem pure {a : α} (h : P a []) : (Pure.pure a : Walk α).Ends P := by
  rintro _ ⟨⟩
  exact h

theorem imp {P' : α → List Diagnostic → Prop} {x : Walk α} (h : x.Ends P)
    (hP : ∀ a ds, x.result = .ok a → P a ds → P' a ds) : x.Ends P' :=
  fun a ha => hP a _ ha (h a ha)

theorem bind {x : Walk α} {f : α → Walk β} (hx : x.Ends P)
    (hf : ∀ a ds, x.result = .ok a → P a ds → (f a).Ends fun b later => R b (ds ++ later)) :
    (x >>= f).Ends R := by
  intro b hb
  obtain ⟨a, hresult, hb⟩ := exists_of_result_bind hb
  rw [log_bind hresult]
  exact hf a _ hresult (hx a hresult) b hb

/-- A last step that reports nothing. -/
theorem last {x : Walk α} {f : α → β} (hx : x.Ends P)
    (hf : ∀ a ds, x.result = .ok a → P a ds → R (f a) ds) :
    (x >>= fun a => Pure.pure (f a)).Ends R :=
  hx.bind fun a ds ha h => pure (by rw [List.append_nil]; exact hf a ds ha h)

end Ends

/-! ## Second walks -/

/-- A second walk over `a`, which a first one came to, reports again what the first one did, except
for literals that are whole groups. If there are none of these, it changes nothing. -/
structure Redoes (reported : List Diagnostic) (a : α) (w : Walk α) : Prop where
  settled : (∀ d ∈ reported, d.isWholeGroup = false) → w = .of { diagnostics := reported } (.ok a)
  again : w.Ends fun _ ds => (reported.filter fun d => !d.isWholeGroup).Sublist ds

namespace Redoes

variable {ds ds' : List Diagnostic} {a : α} {b : β}

theorem of_eq {w : Walk α} (h : w = .of { diagnostics := ds } (.ok a)) : w.Redoes ds a := by
  subst h
  refine ⟨fun _ => rfl, ?_⟩
  rintro _ ⟨⟩
  exact List.filter_sublist

theorem pure (a : α) : (Pure.pure a : Walk α).Redoes [] a := of_eq (pure_eq_of a)

theorem bind {x : Walk α} {f : α → Walk β} {g : α → β} (hx : x.Redoes ds a)
    (hf : ∀ a, (f a).Redoes ds' (g a)) : (x >>= f).Redoes (ds ++ ds') (g a) := by
  refine ⟨fun hreported => ?_, hx.again.bind fun a' later _ hlater => ?_⟩
  · obtain ⟨hfirst, hlast⟩ := List.forall_mem_append.1 hreported
    rw [hx.settled hfirst, of_ok_bind, (hf a).settled hlast]
    rfl
  · refine (hf a').again.imp fun _ _ _ hlast => ?_
    rw [List.filter_append]
    exact hlater.append hlast

/-- A last step that reports nothing. -/
theorem last {x : Walk α} (hx : x.Redoes ds a) (g : α → β) :
    (x >>= fun a => Pure.pure (g a)).Redoes ds (g a) := by
  rw [← List.append_nil ds]
  exact hx.bind fun a => pure (g a)

/-- A further step that does nothing after the result of the first walk. -/
theorem seq {x : Walk α} {f : α → Walk β} (hx : x.Redoes ds a) (ha : f a = Pure.pure b) :
    (x >>= f).Redoes ds b := by
  refine ⟨fun hreported => ?_, hx.again.bind fun a' later _ hlater => ?_⟩
  · rw [hx.settled hreported, of_ok_bind, ha]
    exact congrArg (Walk.of · (.ok b)) (Log.append_empty _)
  · exact fun _ _ => hlater.trans (List.sublist_append_left _ _)

/-- A report after which a second walk may do anything. -/
theorem of_isWholeGroup {d : Diagnostic} (h : d.isWholeGroup = true) (a : α) (w : Walk α) :
    w.Redoes [d] a := by
  refine ⟨fun hreported => ?_, fun b _ => ?_⟩
  · rw [List.forall_mem_singleton, h] at hreported
    cases hreported
  · simp [h]

end Redoes

end Walk

end Splice
