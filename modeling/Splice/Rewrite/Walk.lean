import Splice.Body.Lower

/-!
# Walks that keep a log

Rewriting walks over a program and records two things on the way: the argument lists that it
changed, and the diagnostics. A walk goes on with the log that is there when it starts, and what was
recorded before a failure stays. It can do no more with the log than to add to its end, so a walk is
known by its result and by what it makes of an empty log.

* `Walk.log_bind`: two steps of a walk record what the first one records, then what the second does.
-/

namespace Splice

/-- A changed argument list: the node that it is in, and what each of its literals became. -/
structure Site where
  loc : Loc
  node : Node
  lowered : List (List Argument)
deriving Inhabited

/-- What was recorded, in order. -/
structure Log where
  sites : List Site := []
  diagnostics : List Diagnostic := []
deriving Inhabited

namespace Log

/-- One record after another. -/
def append (a b : Log) : Log := ⟨a.sites ++ b.sites, a.diagnostics ++ b.diagnostics⟩

instance : Append Log := ⟨append⟩

theorem append_def (a b : Log) :
    a ++ b = ⟨a.sites ++ b.sites, a.diagnostics ++ b.diagnostics⟩ := rfl

theorem append_assoc (a b c : Log) : a ++ b ++ c = a ++ (b ++ c) := by
  simp [append_def]

@[simp] theorem empty_append (a : Log) : ({} : Log) ++ a = a := rfl

@[simp] theorem append_empty (a : Log) : a ++ ({} : Log) = a := by
  simp [append_def]

end Log

/-- A walk, from the log before it to the log behind it and a result. -/
structure Walk (α : Type) where
  run : Log → Log × Except Failure α
  /-- What was recorded before stays as it is, and nothing depends on it. -/
  run_eq : ∀ log, run log = (log ++ (run {}).1, (run {}).2)

namespace Walk

variable {α β : Type}

/-- What is recorded, from an empty log on. -/
def log (x : Walk α) : Log := (x.run {}).1

/-- The result. -/
def result (x : Walk α) : Except Failure α := (x.run {}).2

/-- The second step goes on with the log of the first one, unless that failed. -/
def andThen (x : Walk α) (f : α → Walk β) (log : Log) : Log × Except Failure β :=
  match x.run log with
  | (log', .ok a) => (f a).run log'
  | (log', .error e) => (log', .error e)

theorem andThen_of_ok {x : Walk α} {f : α → Walk β} {a : α} (h : x.result = .ok a) (log : Log) :
    x.andThen f log = (log ++ (x.log ++ (f a).log), (f a).result) := by
  rw [result] at h
  rw [andThen, x.run_eq, h]
  dsimp only
  rw [(f a).run_eq, Log.append_assoc]
  rfl

theorem andThen_of_error {x : Walk α} {f : α → Walk β} {e : Failure} (h : x.result = .error e)
    (log : Log) : x.andThen f log = (log ++ x.log, .error e) := by
  rw [result] at h
  rw [andThen, x.run_eq, h]
  rfl

theorem andThen_eq (x : Walk α) (f : α → Walk β) (log : Log) :
    x.andThen f log = (log ++ (x.andThen f {}).1, (x.andThen f {}).2) := by
  cases h : x.result with
  | ok a => simp only [andThen_of_ok h, Log.empty_append]
  | error e => simp only [andThen_of_error h, Log.empty_append]

instance : Monad Walk where
  pure a := ⟨fun log => (log, .ok a), fun log => by rw [Log.append_empty]⟩
  bind x f := ⟨x.andThen f, x.andThen_eq f⟩

/-- A result that may be a failure. -/
def ofFailing (x : Except Failure α) : Walk α :=
  ⟨fun log => (log, x), fun log => by rw [Log.append_empty]⟩

/-- A walk that fails at once. -/
def fail (e : Failure) : Walk α := ofFailing (.error e)

/-- Records a site. -/
def site (s : Site) : Walk Unit :=
  ⟨fun log => ({ log with sites := log.sites ++ [s] }, .ok ()), fun log => by
    simp [Log.append_def]⟩

/-- Records a diagnostic. -/
def report (d : Diagnostic) : Walk Unit :=
  ⟨fun log => ({ log with diagnostics := log.diagnostics ++ [d] }, .ok ()), fun log => by
    simp [Log.append_def]⟩

/-- The walk that records `log` and comes to a result. -/
def of (log : Log) (result : Except Failure α) : Walk α :=
  ⟨fun before => (before ++ log, result), fun before => by rw [Log.empty_append]⟩

@[simp] theorem log_of (log : Log) (result : Except Failure α) : (of log result).log = log := rfl

@[simp] theorem result_of (log : Log) (result : Except Failure α) :
    (of log result).result = result := rfl

theorem ext_run {x y : Walk α} (h : ∀ log, x.run log = y.run log) : x = y := by
  cases x
  cases y
  cases funext h
  rfl

/-- Walks are the same if they record the same and come to the same result. -/
theorem ext_log {x y : Walk α} (hlog : x.log = y.log) (hresult : x.result = y.result) : x = y :=
  ext_run fun log => by
    rw [x.run_eq, y.run_eq]
    exact Prod.ext (congrArg (log ++ ·) hlog) hresult

theorem run_bind (x : Walk α) (f : α → Walk β) : (x >>= f).run = x.andThen f := rfl

theorem pure_eq_of (a : α) : (pure a : Walk α) = of {} (.ok a) := ext_log rfl rfl

theorem log_pure (a : α) : (pure a : Walk α).log = {} := rfl

theorem log_bind {x : Walk α} {f : α → Walk β} {a : α} (h : x.result = .ok a) :
    (x >>= f).log = x.log ++ (f a).log := by
  rw [log, run_bind, andThen_of_ok h, Log.empty_append]

theorem result_bind {x : Walk α} {f : α → Walk β} {a : α} (h : x.result = .ok a) :
    (x >>= f).result = (f a).result := by
  rw [result, run_bind, andThen_of_ok h]

theorem of_ok_bind (log : Log) (a : α) (f : α → Walk β) :
    of log (.ok a) >>= f = of (log ++ (f a).log) (f a).result :=
  ext_log (log_bind rfl) (result_bind rfl)

theorem bind_of_error {x : Walk α} {f : α → Walk β} {e : Failure} (h : x.result = .error e) :
    x >>= f = of x.log (.error e) := by
  apply ext_log
  · rw [log, run_bind, andThen_of_error h, Log.empty_append, log_of]
  · rw [result, run_bind, andThen_of_error h, result_of]

end Walk

end Splice
