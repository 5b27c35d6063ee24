import Splice.Proofs.Printing.RoundTrip

/-!
# Written expressions as statements

* `parseProgram_writeExpr`: a written expression with a semicolon behind it is parsed as a program
  of one statement.
* `Node.bare_eq_call`, `Node.bare_eq_name`, `Node.bare_eq_interpolation`: which trees are equal to
  a call, a name or an interpolated literal up to places.
-/

namespace Splice

namespace Nonterminal

/-- The value of a nonterminal of statements is one statement up to its places. -/
def GivesStatement : (n : Nonterminal) → Decoded n.Value → Node → Prop
  | evaluation, v, n | statement, v, n => Decoded.Gives v n
  | statements, v, n | program, v, n => Decoded.GivesAll v [n]
  | _, _, _ => False

/-- An expression with a semicolon behind it is a program. -/
theorem reads_program {e : Node} {t s : Text} (loc : Loc) (h : expr.Reads e t (';' :: s)) :
    program.ReadsWith GivesStatement (.evaluate loc e) (t ++ ([';'] : Text)) s := by
  have hrow := (reads_mark (m := .semicolon) rfl s).prepend h
  have hevaluation :
      evaluation.ReadsWith GivesStatement (.evaluate loc e) (t ++ ([';'] : Text)) s :=
    reads_node (Production.mem_statements (k := 13) rfl) hrow
      fun _ _ hv => hv.1.bind fun _ hn => .pure (congrArg (Node.evaluate .start) hn)
  have hstatement : statement.ReadsWith GivesStatement (.evaluate loc e) (t ++ ([';'] : Text)) s :=
    reads_node (Production.mem_statements (k := 7) rfl) hevaluation fun _ _ hv => hv
  have hstatements :
      statements.ReadsWith GivesStatement (.evaluate loc e) (t ++ ([';'] : Text)) s :=
    reads_node (Production.mem_statements (k := 2) rfl) hstatement fun _ _ hv => .one hv
  exact reads_node (Production.mem_statements (k := 1) rfl) hstatements fun _ _ hv => hv

end Nonterminal

/-! ## Trees that are equal up to places -/

namespace Node

variable {n : Node}

theorem bare_eq_name {loc : Loc} {ident : Text} (h : n.bare = .name loc ident) :
    ∃ loc', n = .name loc' ident := by
  cases n with
  | name loc' ident' =>
    cases h
    exact ⟨loc', rfl⟩
  | _ => cases h

theorem bare_eq_interpolation {i : Interpolation} (h : n.bare = (Node.interpolation i).bare) :
    ∃ i', n = .interpolation i' ∧ i'.kind = i.kind ∧ i'.body.text = i.body.text := by
  cases n with
  | interpolation i' =>
    simp only [bare, mapLoc, interpolation.injEq] at h
    have hkind := congrArg Interpolation.kind h
    have hbody := congrArg (fun i => i.body.text) h
    simp only [Interpolation.mapLoc, PlacedText.text_map] at hbody
    exact ⟨i', rfl, hkind, hbody⟩
  | _ => cases h

theorem bare_eq_call {loc : Loc} {callee : Node} {args : List Node}
    (h : n.bare = .call loc callee args) :
    ∃ loc' callee' args', n = .call loc' callee' args' ∧ callee'.bare = callee ∧
      args'.map bare = args := by
  cases n with
  | call loc' callee' args' =>
    rw [bare, mapLoc, mapLocs_eq_map] at h
    cases h
    exact ⟨loc', callee', args', rfl, rfl, rfl⟩
  | _ => cases h

theorem bare_eq_evaluate {loc : Loc} {e : Node} (h : n.bare = .evaluate loc e) :
    ∃ loc' e', n = .evaluate loc' e' ∧ e'.bare = e := by
  cases n with
  | evaluate loc' e' =>
    cases h
    exact ⟨loc', e', rfl, rfl⟩
  | _ => cases h

end Node

/-- The source form of an expression with a semicolon behind it is parsed as a program whose only
statement evaluates the expression. -/
theorem parseProgram_writeExpr {Q : Interpolation → Prop} {e : Node} (h : HasSort Q .expr e)
    (hpositional : ArePositional e.constants) :
    ∃ loc e', parseProgram (e.text ++ ([';'] : Text)) = .ok [.evaluate loc e'] ∧
      e'.bare = e.bare := by
  have hread := h.isWritten.reads_expr hpositional (s := ([';'] : Text)) (.of_mem (by decide) [])
  obtain ⟨p, hparse, hp⟩ := @parse_of_reads .program _ _
    (Nonterminal.reads_program .start hread)
  obtain ⟨n, rfl, hn⟩ := List.map_eq_singleton_iff.1 hp
  obtain ⟨loc, e', rfl, he⟩ := Node.bare_eq_evaluate hn
  exact ⟨loc, e', hparse, he⟩

end Splice
