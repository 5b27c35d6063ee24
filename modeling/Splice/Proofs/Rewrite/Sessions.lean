import Splice.Proofs.Embedding.Arguments
import Splice.Proofs.Rewrite.Conserves

/-!
# Several programs with one rewriter

A rewriter keeps what it has recorded, and every result lists all of it. A walk only ever adds to
the record, and nothing in it depends on the record, so the programs of a session do not notice each
other, and neither do the statements of a program.

* `Session.outcomes`: what a session returns for some programs in turn.
* `Rewriter.stmts_append`: two rows of statements, one after the other.
* `Session.outcomes_fresh`: a program of a session against a session of its own.
-/

namespace Splice

/-! ## Statements in a row -/

namespace Rewriter

variable {r : Rewriter}

theorem stmts_append (r : Rewriter) (before after : List Node) :
    r.stmts (before ++ after) = (do
      let out ← r.stmts before
      let last ← r.stmts after
      return out ++ last) := by
  induction before with
  | nil => simp [stmts]
  | cons s before ih => simp [stmts, ih]

/-- The second row goes on with the record of the first one. -/
theorem program_run_append (r : Rewriter) (before after : Program) (log : Log) :
    (r.program (before ++ after)).run log =
      match (r.program before).run log with
      | (log', .error e) => (log', .error e)
      | (log', .ok out) =>
        match (r.program after).run log' with
        | (log'', .error e) => (log'', .error e)
        | (log'', .ok last) => (log'', .ok (out ++ last)) := by
  simp only [program, stmts_append, Walk.run_bind, Walk.andThen]
  rcases (r.stmts before).run log with ⟨log', e | out⟩
  · rfl
  · dsimp only
    rcases (r.stmts after).run log' with ⟨log'', e | last⟩ <;> rfl

theorem program_append {before after out last : Program}
    (hbefore : (r.program before).result = .ok out)
    (hafter : (r.program after).result = .ok last) :
    r.program (before ++ after) =
      .of ((r.program before).log ++ (r.program after).log) (.ok (out ++ last)) := by
  have hfirst : (r.program before).run {} = ((r.program before).log, .ok out) :=
    Prod.ext rfl hbefore
  have hsecond : (r.program after).run (r.program before).log =
      ((r.program before).log ++ (r.program after).log, .ok last) := by
    rw [Walk.run_eq]
    exact Prod.ext rfl hafter
  have happend := program_run_append r before after {}
  simp only [hfirst, hsecond] at happend
  exact Walk.ext_log (congrArg Prod.fst happend) (congrArg Prod.snd happend)

end Rewriter

/-! ## Programs in turn -/

namespace Session

/-- What a rewriter returns for a program: the program, and all that has been recorded so far. -/
structure Outcome where
  result : Except Failure Program
  log : Log

/-- What the session returns for one more program. -/
def outcome (s : Session) (p : Program) : Outcome := ⟨(s.rewrite p).2, (s.rewrite p).1.log⟩

/-- What the session returns for each of some programs that it rewrites in turn. -/
def outcomes (s : Session) : List Program → List Outcome
  | [] => []
  | p :: rest => s.outcome p :: (s.rewrite p).1.outcomes rest

/-- What a rewriter that has recorded nothing returns for a program. -/
def fresh (r : Rewriter) (p : Program) : Outcome := ({ rewriter := r } : Session).outcome p

variable {r : Rewriter}

theorem fresh_eq (r : Rewriter) (p : Program) :
    fresh r p = ⟨(r.program p).result, (r.program p).log⟩ := rfl

/-- What rewriters that have recorded nothing record for some programs. -/
def logOf (r : Rewriter) (programs : List Program) : Log where
  sites := programs.flatMap fun p => (fresh r p).log.sites
  diagnostics := programs.flatMap fun p => (fresh r p).log.diagnostics

theorem logOf_cons (p : Program) (rest : List Program) :
    logOf r (p :: rest) = (fresh r p).log ++ logOf r rest := rfl

/-- The record grows by what the program adds to an empty one. -/
theorem rewrite_eq (s : Session) (p : Program) :
    s.rewrite p =
      ({ s with log := s.log ++ (fresh s.rewriter p).log }, (fresh s.rewriter p).result) := by
  rw [rewrite, Walk.run_eq]
  rfl

theorem outcomes_getElem? (s : Session) (before : List Program) (p : Program)
    (after : List Program) :
    (s.outcomes (before ++ p :: after))[before.length]? =
      some ⟨(fresh s.rewriter p).result, s.log ++ logOf s.rewriter (before ++ [p])⟩ := by
  induction before generalizing s with
  | nil =>
    have hlog : logOf s.rewriter [p] = (fresh s.rewriter p).log := Log.append_empty _
    simp only [List.nil_append, outcomes, List.length_nil, List.getElem?_cons_zero, outcome,
      rewrite_eq, hlog]
  | cons q before ih =>
    simp only [List.cons_append, outcomes, List.length_cons, List.getElem?_cons_succ, ih,
      logOf_cons, rewrite_eq, Log.append_assoc]

/-- The program that a session returns for a program is the one that a session of its own returns,
and what the session has recorded then is what such sessions record for the programs so far. One
program of two rows of statements is rewritten like the two rows. -/
theorem outcomes_fresh (r : Rewriter) :
    (∀ (before : List Program) (p : Program) (after : List Program),
      ∃ outcome, (({ rewriter := r } : Session).outcomes (before ++ p :: after))[before.length]? =
          some outcome ∧
        outcome.result = (fresh r p).result ∧
        outcome.log.sites = (before ++ [p]).flatMap (fun q => (fresh r q).log.sites) ∧
        outcome.log.diagnostics = (before ++ [p]).flatMap fun q => (fresh r q).log.diagnostics) ∧
    ∀ before after out last : Program,
      (fresh r before).result = .ok out → (fresh r after).result = .ok last →
        (fresh r (before ++ after)).result = .ok (out ++ last) ∧
        (fresh r (before ++ after)).log.sites =
          (fresh r before).log.sites ++ (fresh r after).log.sites ∧
        (fresh r (before ++ after)).log.diagnostics =
          (fresh r before).log.diagnostics ++ (fresh r after).log.diagnostics := by
  refine ⟨fun before p after => ?_, fun before after out last hout hlast => ?_⟩
  · exact ⟨_, outcomes_getElem? { rewriter := r } before p after, rfl, rfl, rfl⟩
  · have happend := Rewriter.program_append hout hlast
    simp only [fresh_eq]
    rw [happend]
    exact ⟨rfl, rfl, rfl⟩

/-- One program twice, and its statements twice in one program. -/
theorem outcomes_fresh_twice :
    let source := callSource .interspersed (embed ['a'] [(.name ['x'], [])])
    ∃ p p', parseProgram source = .ok p ∧ (fresh {} p).result = .ok p' ∧
      (∃ outcome, (({ rewriter := {} } : Session).outcomes [p, p])[1]? = some outcome ∧
        outcome.result = .ok p' ∧
        outcome.log.sites = (fresh {} p).log.sites ++ (fresh {} p).log.sites) ∧
      (fresh {} (p ++ p)).result = .ok (p' ++ p') ∧
      (fresh {} (p ++ p)).log.sites = (fresh {} p).log.sites ++ (fresh {} p).log.sites := by
  have hname : (Embedded.name ['x']).StandsBefore [] := ⟨⟨'x', [], rfl, by decide, nofun⟩, nofun⟩
  have hrest : ∀ p ∈ [(Embedded.name ['x'], ([] : Text))], p.1.StandsBefore p.2 :=
    List.forall_mem_singleton.2 hname
  obtain ⟨p, _, _, _, _, _, hparse, hrewrite, -⟩ :=
    Rewriter.program_callSource (r := {}) rfl .interspersed ['a'] hrest
  have hresult : (fresh {} p).result = .ok _ := congrArg Walk.result hrewrite
  obtain ⟨hturn, hrows⟩ := outcomes_fresh {}
  obtain ⟨outcome, houtcome, hsame, hsites, -⟩ := hturn [p] p []
  obtain ⟨hout, hrecord, -⟩ := hrows p p _ _ hresult hresult
  refine ⟨p, _, hparse, hresult, ⟨outcome, houtcome, hsame.trans hresult, ?_⟩, hout, hrecord⟩
  rw [hsites]
  simp

end Session

end Splice
