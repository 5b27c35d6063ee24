import Splice.Proofs.Body.Scanning
import Splice.Body.Lower

/-!
# Causes of rejections

A literal is rejected for what is wrong in its body, and then it is rejected wherever it stands; or
for where it stands.

* `Attempt.Rejects`: why an attempt is rejected, if it is.
* `Interpolation.attempt_eq`: resolving a body does not depend on where the literal stands.
* `Interpolation.lower_rejected`: the two kinds of reports.
-/

namespace Splice

/-- The literal is rejected for what is wrong in its body, not for where it stands. The notes, if
there are any, are those of a group that neither parser understands. -/
structure Rejection.IsOfBody (r : Rejection) : Prop where
  fault : r.cause.fault ≠ .illegalContext
  notes : r.notes = [] ∨ ∃ raw asType asExpr, r.notes = Insertion.notes raw asType asExpr

theorem Fault.code_inj {f f' : Fault} (h : f.code = f'.code) : f = f' := by
  have hcode := f.ofCode?_code
  rw [h, ofCode?_code] at hcode
  exact (Option.some.inj hcode).symm

namespace Attempt

variable {α β : Type} {R : Rejection → Prop}

/-- If the attempt is rejected, then for a reason of some sort. -/
def Rejects (R : Rejection → Prop) (x : Attempt α) : Prop := ∀ r, x.run = .ok (.error r) → R r

theorem Rejects.pure (a : α) : (Pure.pure a : Attempt α).Rejects R := nofun

theorem Rejects.ofFailing (x : Except Failure α) : (Attempt.ofFailing x).Rejects R := by
  cases x <;> nofun

theorem run_bind_eq_ok {x : Attempt α} {f : α → Attempt β} {b : β} :
    (x >>= f).run = .ok (.ok b) ↔ ∃ a, x.run = .ok (.ok a) ∧ (f a).run = .ok (.ok b) := by
  rw [ExceptT.run_bind]
  rcases x.run with failure | r | a
  · exact ⟨nofun, nofun⟩
  · exact ⟨nofun, nofun⟩
  · exact ⟨fun h => ⟨a, rfl, h⟩, fun ⟨_, ha, h⟩ => by cases ha; exact h⟩

theorem run_bind_eq_error {x : Attempt α} {f : α → Attempt β} {r : Rejection} :
    (x >>= f).run = .ok (.error r) ↔
      x.run = .ok (.error r) ∨ ∃ a, x.run = .ok (.ok a) ∧ (f a).run = .ok (.error r) := by
  rw [ExceptT.run_bind]
  rcases x.run with failure | r' | a
  · exact ⟨nofun, fun h => h.elim nofun nofun⟩
  · exact ⟨fun h => .inl (by cases h; rfl), fun h => h.elim (fun h => by cases h; rfl) nofun⟩
  · exact ⟨fun h => .inr ⟨a, rfl, h⟩, fun h => h.elim nofun fun ⟨_, ha, h⟩ => by cases ha; exact h⟩

theorem run_ofFailing_eq_ok {x : Except Failure α} {a : α} :
    (Attempt.ofFailing x).run = .ok (.ok a) ↔ x = .ok a := by
  cases x with
  | error failure => exact ⟨nofun, nofun⟩
  | ok a' => exact ⟨fun h => by cases h; rfl, fun h => by cases h; rfl⟩

theorem Rejects.bind {x : Attempt α} {f : α → Attempt β} (hx : x.Rejects R)
    (hf : ∀ a, (f a).Rejects R) : (x >>= f).Rejects R := by
  intro r hr
  obtain hr | ⟨a, -, hr⟩ := run_bind_eq_error.1 hr
  · exact hx r hr
  · exact hf a r hr

end Attempt

theorem isOfBody_of_ofDollar {dollar : Nat} {t : Text} {r : Rejection}
    (h : Segment.ofDollar dollar t = .error r) : r.IsOfBody := by
  unfold Segment.ofDollar at h
  repeat' split at h
  all_goals cases h
  all_goals exact ⟨nofun, .inl rfl⟩

theorem isOfBody_of_segments {body : Text} {r : Rejection} (h : segments body = .error r) :
    r.IsOfBody := by
  obtain ⟨_, _, _, hdollar, -⟩ := exists_of_scan_error h
  exact isOfBody_of_ofDollar hdollar

/-- A group that is rejected is one that neither parser understands. -/
theorem exists_of_resolveGroup_error {parsers : FragmentParsers} {locate : Option Locate}
    {raw : Text} {start stop : Nat} {r : Rejection}
    (h : (Insertion.resolveGroup parsers locate raw start stop).run = .ok (.error r)) :
    ∃ asType asExpr, parsers.type raw = .ok asType ∧ parsers.expr raw = .ok asExpr ∧
      asType.covers raw = false ∧ asExpr.covers raw = false ∧
      r = { cause := .neither raw, start := some start, stop := some stop,
            notes := Insertion.notes raw asType asExpr } := by
  obtain htype | ⟨asType, htype, h⟩ := Attempt.run_bind_eq_error.1 h
  · exact absurd htype (Attempt.Rejects.ofFailing (R := fun _ => False) _ r)
  obtain hexpr | ⟨asExpr, hexpr, h⟩ := Attempt.run_bind_eq_error.1 h
  · exact absurd hexpr (Attempt.Rejects.ofFailing (R := fun _ => False) _ r)
  refine ⟨asType, asExpr, Attempt.run_ofFailing_eq_ok.1 htype, Attempt.run_ofFailing_eq_ok.1 hexpr,
    ?_⟩
  split at h
  next => cases h
  next hneither =>
    split at h
    next => cases h
    next hexpr =>
      rw [Bool.not_eq_true] at hexpr
      rw [hexpr, Bool.not_false, Bool.and_true, Bool.not_eq_true] at hneither
      cases h
      exact ⟨hneither, hexpr, rfl⟩

namespace Segment

variable {parsers : FragmentParsers} {locate : Option Locate} {found : List Segment}

/-- A row of segments is rejected for one of its names and groups. -/
theorem exists_of_resolve_error {r : Rejection}
    (h : (resolve parsers locate found).run = .ok (.error r)) :
    ∃ ins, .insertion ins ∈ found ∧ (ins.resolve parsers locate).run = .ok (.error r) := by
  induction found with
  | nil => cases h
  | cons segment rest ih =>
    cases segment with
    | insertion ins =>
      obtain hfirst | ⟨_, -, h⟩ := Attempt.run_bind_eq_error.1 h
      · exact ⟨ins, List.mem_cons_self, hfirst⟩
      obtain hlater | ⟨_, -, h⟩ := Attempt.run_bind_eq_error.1 h
      · obtain ⟨ins, hmem, hins⟩ := ih hlater
        exact ⟨ins, List.mem_cons_of_mem _ hmem, hins⟩
      · cases h
    | text | dollar =>
      obtain hlater | ⟨_, -, h⟩ := Attempt.run_bind_eq_error.1 h
      · obtain ⟨ins, hmem, hins⟩ := ih hlater
        exact ⟨ins, List.mem_cons_of_mem _ hmem, hins⟩
      · cases h

/-- The names and groups of a resolved row are those of the row, resolved. -/
theorem exists_of_mem_resolve {resolved : List Segment}
    (h : (resolve parsers locate found).run = .ok (.ok resolved)) {ins : Insertion}
    (hmem : .insertion ins ∈ resolved) :
    ∃ unresolved, .insertion unresolved ∈ found ∧
      (unresolved.resolve parsers locate).run = .ok (.ok ins) := by
  induction found generalizing resolved with
  | nil =>
    cases h
    cases hmem
  | cons segment rest ih =>
    cases segment with
    | insertion unresolved =>
      obtain ⟨first, hfirst, h⟩ := Attempt.run_bind_eq_ok.1 h
      obtain ⟨later, hlater, h⟩ := Attempt.run_bind_eq_ok.1 h
      cases h
      rcases List.mem_cons.1 hmem with heq | hmem
      · cases heq
        exact ⟨unresolved, List.mem_cons_self, hfirst⟩
      · obtain ⟨unresolved, hmem, hins⟩ := ih hlater hmem
        exact ⟨unresolved, List.mem_cons_of_mem _ hmem, hins⟩
    | text | dollar =>
      obtain ⟨later, hlater, h⟩ := Attempt.run_bind_eq_ok.1 h
      cases h
      rcases List.mem_cons.1 hmem with heq | hmem
      · cases heq
      · obtain ⟨unresolved, hmem, hins⟩ := ih hlater hmem
        exact ⟨unresolved, List.mem_cons_of_mem _ hmem, hins⟩

theorem resolve_rejects (parsers : FragmentParsers) (locate : Option Locate)
    (found : List Segment) : (resolve parsers locate found).Rejects Rejection.IsOfBody := by
  intro r hr
  obtain ⟨ins, -, hins⟩ := exists_of_resolve_error hr
  cases ins with
  | name => cases hins
  | group raw start stop =>
    obtain ⟨asType, asExpr, -, -, -, -, rfl⟩ := exists_of_resolveGroup_error hins
    exact ⟨nofun, .inr ⟨raw, asType, asExpr, rfl⟩⟩

end Segment

namespace Interpolation

/-- The resolved segments of a literal, which do not depend on where it stands. -/
def resolved (i : Interpolation) (parsers : FragmentParsers) : Attempt (List Segment) := do
  let found ← Attempt.ofRejecting (segments i.body.text)
  Segment.resolve parsers (some i.locate) found

theorem resolved_rejects (i : Interpolation) (parsers : FragmentParsers) :
    (i.resolved parsers).Rejects Rejection.IsOfBody :=
  Attempt.Rejects.bind (fun _ hr => isOfBody_of_segments (Except.ok.inj hr)) fun found =>
    Segment.resolve_rejects parsers _ found

variable {i : Interpolation} {context : Context} {parsers : FragmentParsers}
  {file : Option Text} {d : Diagnostic}

/-- The arguments of a literal with resolved segments, if it can stand in the context. -/
def admitted (i : Interpolation) (context : Context) (resolved : List Segment) :
    Attempt Lowering := do
  Attempt.ofRejecting (context.check i.kind)
  let args ← Attempt.ofFailing (lowerSegments resolved i.kind)
  return { segments := resolved, args }

theorem attempt_eq (i : Interpolation) (context : Context) (parsers : FragmentParsers) :
    i.attempt context parsers = i.resolved parsers >>= i.admitted context := by
  rw [attempt, resolved, bind_assoc]
  rfl

theorem admitted_rejects (i : Interpolation) (context : Context) (resolved : List Segment) :
    (i.admitted context resolved).Rejects fun r =>
      context.admits i.kind = false ∧ r = { cause := context.refusal i.kind } := by
  refine Attempt.Rejects.bind (fun r hr => ?_) fun _ => (Attempt.Rejects.ofFailing _).bind
    fun args => .pure _
  have hcheck : context.check i.kind = .error r := Except.ok.inj hr
  unfold Context.check at hcheck
  split at hcheck
  · cases hcheck
  · next hadmits => cases hcheck; exact ⟨Bool.eq_false_iff.2 hadmits, rfl⟩

theorem admitted_of_not_admits {segments : List Segment} (h : context.admits i.kind = false) :
    (i.admitted context segments).run = .ok (.error { cause := context.refusal i.kind }) := by
  rw [admitted, Context.check, if_neg (by rw [h]; decide)]
  rfl

theorem lower_eq_error :
    i.lower context parsers file = .ok (.error d) ↔
      ∃ r, (i.attempt context parsers).run = .ok (.error r) ∧ d = i.diagnostic file r := by
  unfold lower
  rcases (i.attempt context parsers).run with failure | r | lowering
  · exact ⟨nofun, nofun⟩
  · exact ⟨fun h => ⟨r, rfl, (Except.error.inj (Except.ok.inj h)).symm⟩,
      fun ⟨r', hr, hd⟩ => by cases hr; rw [hd]; rfl⟩
  · exact ⟨nofun, nofun⟩

theorem lower_eq_ok_iff_run {lowering : Lowering} :
    i.lower context parsers file = .ok (.ok lowering) ↔
      (i.attempt context parsers).run = .ok (.ok lowering) := by
  unfold lower
  rcases (i.attempt context parsers).run with failure | r | lowering'
  · exact ⟨nofun, nofun⟩
  · exact ⟨nofun, nofun⟩
  · exact ⟨fun h => by cases h; rfl, fun h => by cases h; rfl⟩

theorem lower_eq_ok {lowering : Lowering} :
    i.lower context parsers file = .ok (.ok lowering) ↔
      context.admits i.kind = true ∧ (i.resolved parsers).run = .ok (.ok lowering.segments) ∧
        lowerSegments lowering.segments i.kind = .ok lowering.args := by
  rw [lower_eq_ok_iff_run, attempt_eq, Attempt.run_bind_eq_ok]
  constructor
  · rintro ⟨segments, hresolved, hadmitted⟩
    cases hadmits : context.admits i.kind with
    | false => cases (admitted_of_not_admits hadmits).symm.trans hadmitted
    | true =>
      obtain ⟨_, -, hadmitted⟩ := Attempt.run_bind_eq_ok.1 hadmitted
      obtain ⟨args, hargs, hlast⟩ := Attempt.run_bind_eq_ok.1 hadmitted
      cases hlast
      exact ⟨rfl, hresolved, Attempt.run_ofFailing_eq_ok.1 hargs⟩
  · rintro ⟨hadmits, hresolved, hargs⟩
    refine ⟨lowering.segments, hresolved, ?_⟩
    rw [admitted, Context.check, if_pos hadmits, hargs]
    rfl

theorem lower_ne_ok (h : context.admits i.kind = false) (lowering : Lowering) :
    i.lower context parsers file ≠ .ok (.ok lowering) := by
  intro hlower
  rw [(lower_eq_ok.1 hlower).1] at h
  cases h

/-- A literal is rejected for where it stands, or else for what is wrong in its body; then it is
rejected so wherever it stands. -/
theorem lower_rejected (h : i.lower context parsers file = .ok (.error d)) :
    context.admits i.kind = false ∧ d = i.diagnostic file { cause := context.refusal i.kind } ∨
      d.code ≠ some Fault.illegalContext.code ∧
        ∀ context', i.lower context' parsers file = .ok (.error d) := by
  obtain ⟨r, hr, rfl⟩ := lower_eq_error.1 h
  rw [attempt_eq] at hr
  obtain hresolved | ⟨resolved, -, hadmitted⟩ := Attempt.run_bind_eq_error.1 hr
  · refine .inr ⟨fun hcode => ?_, fun context' => lower_eq_error.2 ⟨r, ?_, rfl⟩⟩
    · exact (i.resolved_rejects parsers r hresolved).fault (Fault.code_inj (Option.some.inj hcode))
    · rw [attempt_eq]
      exact Attempt.run_bind_eq_error.2 (.inl hresolved)
  · obtain ⟨hadmits, rfl⟩ := i.admitted_rejects context resolved r hadmitted
    exact .inl ⟨hadmits, rfl⟩

end Interpolation

end Splice
