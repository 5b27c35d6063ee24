import Splice.Proofs.Body.Moved
import Splice.Proofs.Phrase.Moved
import Splice.Proofs.Rewrite.Conservation

/-!
# Rewriting what stands elsewhere

A program that is moved is rewritten as before, with everything that comes of it moved alike: the
locations of the result and of the sites, and the places that are reported. So it does not matter
how many line feeds and spaces a source begins with.

* `Walk.Moves`: a walk over what is moved.
* `rewrite_moves`, `Rewriter.stmt_moves`: the walk over a tree of the host grammar.
* `Rewriter.program_indented`: a program behind line feeds and spaces.
-/

namespace Splice

/-! ## The judgement -/

/-- The site with every location mapped. -/
def Site.mapLoc (f : Loc → Loc) (s : Site) : Site :=
  ⟨f s.loc, s.node.mapLoc f, s.lowered.map (List.map (Argument.mapLoc f))⟩

namespace Walk

variable {α β γ δ : Type} {f : Loc → Loc} {g : α → β} {k : γ → δ}

/-- A walk over something that is moved comes to the same, moved with it, and records and reports
the same at the places where it is then. -/
structure Moves (f : Loc → Loc) (g : α → β) (x : Walk α) (x' : Walk β) : Prop where
  result : x'.result = x.result.map g
  sites : x'.log.sites = x.log.sites.map (Site.mapLoc f)
  diagnostics : List.Forall₂ (Diagnostic.IsMoved f) x.log.diagnostics x'.log.diagnostics

namespace Moves

theorem pure (a : α) : Moves f g (Pure.pure a : Walk α) (Pure.pure (g a)) := ⟨rfl, rfl, .nil⟩

theorem fail (e : Failure) : Moves f g (Walk.fail e : Walk α) (Walk.fail e) := ⟨rfl, rfl, .nil⟩

theorem bind {x : Walk α} {x' : Walk β} {h : α → Walk γ} {h' : β → Walk δ} (hx : Moves f g x x')
    (hh : ∀ a, Moves f k (h a) (h' (g a))) : Moves f k (x >>= h) (x' >>= h') := by
  obtain ⟨hresult, hsites, hdiagnostics⟩ := hx
  cases hrun : x.result with
  | error failure =>
    rw [hrun] at hresult
    rw [bind_of_error hrun, bind_of_error hresult]
    exact ⟨rfl, hsites, hdiagnostics⟩
  | ok a =>
    rw [hrun] at hresult
    obtain ⟨hresult', hsites', hdiagnostics'⟩ := hh a
    refine ⟨?_, ?_, ?_⟩
    · rw [result_bind hrun, result_bind hresult, hresult']
    · rw [log_bind hrun, log_bind hresult, Log.append_def, Log.append_def, hsites, hsites',
        List.map_append]
    · rw [log_bind hrun, log_bind hresult, Log.append_def, Log.append_def]
      exact List.rel_append hdiagnostics hdiagnostics'

/-- A last step that records nothing. -/
theorem last {x : Walk α} {x' : Walk β} {h : α → γ} {h' : β → δ} (hx : Moves f g x x')
    (hh : ∀ a, h' (g a) = k (h a)) :
    Moves f k (x >>= fun a => Pure.pure (h a)) (x' >>= fun b => Pure.pure (h' b)) :=
  hx.bind fun a => by
    rw [hh]
    exact pure (h a)

/-- A walk over each of several things that are moved. -/
theorem mapM {h : α → Walk γ} {h' : β → Walk δ} {as : List α}
    (hh : ∀ a ∈ as, Moves f k (h a) (h' (g a))) :
    Moves f (List.map k) (as.mapM h) ((as.map g).mapM h') := by
  induction as with
  | nil => exact pure []
  | cons a as ih =>
    obtain ⟨hfirst, hlater⟩ := List.forall_mem_cons.1 hh
    rw [List.map_cons, List.mapM_cons, List.mapM_cons]
    exact hfirst.bind fun c => (ih hlater).last fun cs => rfl

end Moves

end Walk

/-! ## Literals -/

/-- What the arguments of a list became, with every location mapped. -/
def loweredMoved (f : Loc → Loc) (lowered : List (List Argument)) : List (List Argument) :=
  lowered.map (List.map (Argument.mapLoc f))

/-- An argument list and what was lowered in it, with every location mapped. -/
def argsMoved (f : Loc → Loc) (out : List Node × List (List Argument)) :
    List Node × List (List Argument) :=
  (Node.mapLocs f out.1, loweredMoved f out.2)

section Literals

variable {f : Loc → Loc} {r : Rewriter} {nested : Interpolation → Node → Walk Node}

/-- What comes out of a literal is rewritten alike when it is moved. -/
def NestedMoves (f : Loc → Loc) (nested : Interpolation → Node → Walk Node) : Prop :=
  ∀ i node, IsInserted Interpolation.Ordered node →
    (nested i node).Moves f (Node.mapLoc f) (nested (i.mapLoc f) (node.mapLoc f))

namespace Rewriter

theorem reject_moves (hf : Loc.IsMove f) (hr : r.parsers = .host)
    (i : Interpolation) (place : Text) :
    (r.reject i place).Moves f id (r.reject (i.mapLoc f) place) := by
  have hmoved := i.lower_moved hf (.other place) r.file
  unfold reject
  rw [hr]
  cases hlower : i.lower (.other place) .host r.file with
  | error failure =>
    rw [hlower] at hmoved
    rw [hmoved]
    exact .fail failure
  | ok result =>
    rw [hlower] at hmoved
    cases result with
    | ok lowering =>
      rw [hmoved]
      exact .pure ()
    | error d =>
      obtain ⟨d', hlower', hd⟩ := hmoved
      rw [hlower']
      exact ⟨rfl, rfl, .cons hd .nil⟩

theorem argumentNode_moves (hnested : NestedMoves f nested) (i : Interpolation) {arg : Argument}
    (harg : ∀ role source node, arg = .value role source node →
      IsInserted Interpolation.Ordered node) :
    (argumentNode (nested i) i.loc arg).Moves f (Node.mapLoc f)
      (argumentNode (nested (i.mapLoc f)) (i.mapLoc f).loc (arg.mapLoc f)) := by
  cases arg with
  | text t => exact .pure _
  | value role source node => exact hnested i node (harg role source node rfl)

/-- A literal in an argument list. -/
theorem splice_moves (hf : Loc.IsMove f) (hr : r.parsers = .host)
    (hnested : NestedMoves f nested) {i : Interpolation} (hi : i.Ordered) (context : Context) :
    (r.splice nested context i).Moves f (argsMoved f)
      (r.splice nested context (i.mapLoc f)) := by
  have hspec := Interpolation.lower_spec hi context r.file
  have hmoved := i.lower_moved hf context r.file
  unfold splice
  rw [hr]
  cases hlower : i.lower context .host r.file with
  | error failure =>
    rw [hlower] at hmoved
    rw [hmoved]
    exact .fail failure
  | ok result =>
    rw [hlower] at hmoved hspec
    cases result with
    | error d =>
      obtain ⟨d', hlower', hd⟩ := hmoved
      rw [hlower']
      exact ⟨rfl, rfl, .cons hd .nil⟩
    | ok lowering =>
      rw [hmoved]
      have hnode (arg : Argument) (harg : arg ∈ lowering.args) :
          (argumentNode (nested i) i.loc arg).Moves f (Node.mapLoc f)
            (argumentNode (nested (i.mapLoc f)) (i.mapLoc f).loc (arg.mapLoc f)) :=
        argumentNode_moves hnested i fun role source node heq =>
          (hspec.2 role source node (heq ▸ harg)).2.mono fun j hj => hj.1
      refine (Walk.Moves.mapM hnode).last fun nodes => ?_
      rw [argsMoved, Node.mapLocs_eq_map]
      rfl

theorem record_moves (loc : Loc) (node : Node) (lowered : List (List Argument)) :
    (record loc node lowered).Moves f (Node.mapLoc f)
      (record (f loc) (node.mapLoc f) (loweredMoved f lowered)) := by
  unfold record
  rw [loweredMoved, List.isEmpty_map]
  split
  · exact .pure node
  · exact ⟨rfl, rfl, .nil⟩

end Rewriter

end Literals

/-! ## Trees -/

section Trees

variable {f : Loc → Loc} {r : Rewriter} {nested : Interpolation → Node → Walk Node}

/-- A tree of some sort is rewritten alike when it is moved. -/
def RewriteMoves (f : Loc → Loc) (r : Rewriter) (nested : Interpolation → Node → Walk Node) :
    NodeSort → Node → Prop
  | .expr, n | .templateArg, n => n.isType = false ∧
    (∀ place, (n.rewrite r nested place).Moves f (Node.mapLoc f)
      ((n.mapLoc f).rewrite r nested place)) ∧ ∀ i, n = .interpolation i → i.Ordered
  | .type _, t => t.isType = true ∧
    (t.rewriteType r nested).Moves f (Node.mapLoc f) ((t.mapLoc f).rewriteType r nested)
  | .optional sort, n => n = .missing ∨ RewriteMoves f r nested sort n
  | .statement, _ | .param, _ => True

theorem rewriteArgs_moves (hf : Loc.IsMove f)
    (hr : r.parsers = .host) (hnested : NestedMoves f nested) {sort : NodeSort}
    (hsort : sort = .expr ∨ sort = .templateArg) {args : List Node}
    (h : ∀ a ∈ args, RewriteMoves f r nested sort a) (context : Context) :
    (Node.rewriteArgs r nested context args).Moves f (argsMoved f)
      (Node.rewriteArgs r nested context (Node.mapLocs f args)) := by
  induction args with
  | nil => exact .pure _
  | cons a rest ih =>
    obtain ⟨hfirst, hlater⟩ := List.forall_mem_cons.1 h
    have ih := ih hlater
    obtain ⟨-, hfirst, hliteral⟩ : RewriteMoves f r nested .expr a := by
      rcases hsort with rfl | rfl <;> exact hfirst
    have happend (nodes : List Node) (lowered : List (List Argument))
        (out : List Node × List (List Argument)) :
        (Node.mapLocs f nodes ++ (argsMoved f out).1,
          loweredMoved f lowered ++ (argsMoved f out).2) =
        argsMoved f (nodes ++ out.1, lowered ++ out.2) := by
      simp [argsMoved, loweredMoved, Node.mapLocs_eq_map]
    by_cases ha : ∃ i, a = .interpolation i
    · obtain ⟨i, rfl⟩ := ha
      rw [Node.mapLocs, Node.mapLoc, Node.rewriteArgs, Node.rewriteArgs]
      refine (Rewriter.splice_moves hf hr hnested (hliteral i rfl) context).bind
        fun ⟨nodes, lowered⟩ => ih.last fun out => happend nodes lowered out
    -- Moving a node makes no literal of it.
    · have ha (i : Interpolation) : a ≠ .interpolation i := fun hi => ha ⟨i, hi⟩
      have ha' (i : Interpolation) : a.mapLoc f ≠ .interpolation i := by
        cases a with
        | interpolation i => exact absurd rfl (ha i)
        | _ => nofun
      rw [Node.mapLocs, Node.rewriteArgs_cons ha, Node.rewriteArgs_cons ha']
      exact (hfirst context.describe).bind fun n => ih.last fun out => rfl

theorem rewriteTypes_moves {reserved : Bool} {t : Node}
    (h : RewriteMoves f r nested (.type reserved) t) :
    (Node.rewriteTypes r nested [t]).Moves f (Node.mapLocs f)
      (Node.rewriteTypes r nested (Node.mapLocs f [t])) := by
  obtain ⟨htype, h⟩ := h
  have hmapped : (t.mapLoc f).isType = true := by rwa [Node.isType_mapLoc]
  simp only [Node.mapLocs, Node.rewriteTypes, htype, hmapped, if_true, pure_bind]
  exact h.last fun t => rfl

/-- The walk over a type that is no template. -/
theorem rewriteType_plain_moves {loc : Option Loc} {ident : Text} {args : List Node} {size : Node}
    (hargs : (Node.rewriteTypes r nested args).Moves f (Node.mapLocs f)
      (Node.rewriteTypes r nested (Node.mapLocs f args)))
    (hsize : RewriteMoves f r nested (.optional .expr) size) :
    (Node.rewriteType r nested (.type loc ident false args size)).Moves f (Node.mapLoc f)
      (Node.rewriteType r nested ((Node.type loc ident false args size).mapLoc f)) := by
  have hsize : (if size.isMissing then pure size else
        size.rewrite r nested "array size" : Walk Node).Moves f (Node.mapLoc f)
      (if (size.mapLoc f).isMissing then pure (size.mapLoc f) else
        (size.mapLoc f).rewrite r nested "array size") := by
    rw [Node.isMissing_mapLoc]
    split
    · exact .pure size
    · next hmissing =>
      rcases hsize with rfl | hsize
      · exact absurd rfl hmissing
      · exact hsize.2.1 _
  rw [Node.mapLoc, rewriteType_plain_eq, rewriteType_plain_eq]
  exact hargs.bind fun inner => hsize.last fun size => rfl

/-- The walk over a template of types. -/
theorem rewriteType_template_moves (hf : Loc.IsMove f)
    (hr : r.parsers = .host) (hnested : NestedMoves f nested) {loc : Loc} {ident : Text}
    {args : List Node} (hargs : ∀ a ∈ args, RewriteMoves f r nested .templateArg a) :
    (Node.rewriteType r nested (.type (some loc) ident true args .missing)).Moves f (Node.mapLoc f)
      (Node.rewriteType r nested
        ((Node.type (some loc) ident true args .missing).mapLoc f)) := by
  have htypes : ∀ a ∈ Node.mapLocs f args, a.isType = false := by
    rw [Node.mapLocs_eq_map]
    exact List.forall_mem_map.2 fun a ha => by rw [Node.isType_mapLoc]; exact (hargs a ha).1
  rw [Node.mapLoc, Node.rewriteType, Node.rewriteType, rewriteTypes_of_args htypes,
    rewriteTypes_of_args fun a ha => (hargs a ha).1]
  simp only [if_true, pure_bind]
  refine (rewriteArgs_moves hf hr hnested (.inr rfl) hargs _).bind fun ⟨args, lowered⟩ => ?_
  have hrecord := Rewriter.record_moves (f := f) loc
    (.typeArg loc (.type (some loc) ident true args .missing)) lowered
  exact hrecord.last fun _ => rfl

/-- The walk over a tree of the host grammar. -/
theorem rewrite_moves (hf : Loc.IsMove f) (hr : r.parsers = .host)
    (hnested : NestedMoves f nested) {sort : NodeSort} {n : Node}
    (h : HasSort Interpolation.Ordered sort n) : RewriteMoves f r nested sort n := by
  -- The walk over the moved node has the same steps. What moves is the result, and with it the
  -- locations in the record.
  induction h with
  | name | literal =>
    refine ⟨rfl, fun place => ?_, nofun⟩
    rw [Node.mapLoc, Node.rewrite, Node.rewrite]
    exact .pure _
  | @interpolation i h =>
    refine ⟨rfl, fun place => ?_, fun i' hi => ?_⟩
    · rw [Node.mapLoc, Node.rewrite, Node.rewrite]
      exact (Rewriter.reject_moves hf hr i place).last fun _ => rfl
    · cases hi
      exact h
  | unary hop _ ih =>
    refine ⟨rfl, fun place => ?_, nofun⟩
    rw [Node.mapLoc, Node.rewrite, Node.rewrite]
    exact (ih.2.1 _).last fun operand => rfl
  | binary hop _ _ ihleft ihright =>
    refine ⟨rfl, fun place => ?_, nofun⟩
    rw [Node.mapLoc, Node.rewrite, Node.rewrite]
    exact (ihleft.2.1 _).bind fun left => (ihright.2.1 _).last fun right => rfl
  | call _ _ ih ihargs =>
    refine ⟨rfl, fun place => ?_, nofun⟩
    rw [Node.mapLoc, Node.rewrite, Node.rewrite]
    refine (ih.2.1 _).bind fun callee => ?_
    refine (rewriteArgs_moves hf hr hnested (.inl rfl) ihargs _).bind fun ⟨args, lowered⟩ => ?_
    exact Rewriter.record_moves _ (.call _ callee args) lowered
  | member _ h ih =>
    refine ⟨rfl, fun place => ?_, nofun⟩
    rw [Node.mapLoc, Node.rewrite, Node.rewrite]
    exact (ih.2.1 _).last fun value => rfl
  | index _ _ ihvalue ihoffset =>
    refine ⟨rfl, fun place => ?_, nofun⟩
    rw [Node.mapLoc, Node.rewrite, Node.rewrite]
    exact (ihvalue.2.1 _).bind fun value => (ihoffset.2.1 _).last fun offset => rfl
  | instantiate _ _ ih ihargs =>
    refine ⟨rfl, fun place => ?_, nofun⟩
    rw [Node.mapLoc, Node.rewrite, Node.rewrite]
    refine (ih.2.1 _).bind fun template => ?_
    refine (rewriteArgs_moves hf hr hnested (.inr rfl) ihargs _).bind fun ⟨args, lowered⟩ => ?_
    exact Rewriter.record_moves _ (.instantiate _ template args) lowered
  | mixin _ ihargs =>
    refine ⟨rfl, fun place => ?_, nofun⟩
    rw [Node.mapLoc, Node.rewrite, Node.rewrite]
    refine (rewriteArgs_moves hf hr hnested (.inl rfl) ihargs _).bind fun ⟨args, lowered⟩ => ?_
    exact Rewriter.record_moves _ (.mixin _ args) lowered
  | exprArg _ ih => exact ih
  | typeArg _ ih =>
    refine ⟨rfl, fun place => ?_, nofun⟩
    rw [Node.mapLoc, Node.rewrite, Node.rewrite]
    exact ih.2.last fun t => rfl
  | builtin b => exact ⟨rfl, rewriteType_plain_moves (.pure _) (.inl rfl)⟩
  | qualified q _ ih => exact ⟨rfl, rewriteType_plain_moves (rewriteTypes_moves ih) (.inl rfl)⟩
  | named h => exact ⟨rfl, rewriteType_plain_moves (.pure _) (.inl rfl)⟩
  | template h _ ihargs => exact ⟨rfl, rewriteType_template_moves hf hr hnested ihargs⟩
  | pointer _ ih => exact ⟨rfl, rewriteType_plain_moves (rewriteTypes_moves ih) (.inl rfl)⟩
  | array _ _ ih ihsize => exact ⟨rfl, rewriteType_plain_moves (rewriteTypes_moves ih) ihsize⟩
  | anyType _ ih => exact ih
  | missing => exact .inl rfl
  | present _ ih => exact .inr ih
  | declare | giveBack | evaluate | block | function | param => trivial

end Trees

/-! ## Programs -/

namespace Rewriter

variable {f : Loc → Loc} {r : Rewriter}

/-- What comes out of a group, however deep literals are followed in it. -/
theorem nestedWithin_moves (hf : Loc.IsMove f)
    (hr : r.parsers = .host) (levels : Nat) {n : Node} (h : IsInserted Interpolation.Ordered n) :
    (r.nestedWithin levels n).Moves f (Node.mapLoc f) (r.nestedWithin levels (n.mapLoc f)) := by
  induction levels generalizing n with
  | zero => exact .fail _
  | succ levels ih =>
    -- Inside the group literals are followed one level less deep.
    have hnested : NestedMoves f fun _ => r.nestedWithin levels := fun _ _ hnode => ih hnode
    rw [nestedWithin, nestedWithin]
    cases h with
    | name loc ident =>
      rw [Node.mapLoc, Node.rewrite, Node.rewrite]
      exact .pure _
    | expr h => exact (rewrite_moves hf hr hnested h).2.1 _
    | type loc h =>
      rw [Node.mapLoc, Node.rewrite, Node.rewrite]
      exact (rewrite_moves hf hr hnested h).2.last fun t => rfl

theorem nested_moves (hf : Loc.IsMove f) (hr : r.parsers = .host) :
    NestedMoves f r.nested := by
  intro i node h
  -- Moving a literal keeps its length, so both are followed to the same depth.
  have hlength : (i.mapLoc f).body.chars.length = i.body.chars.length := List.length_map _
  rw [nested, nested, hlength]
  exact nestedWithin_moves hf hr _ h

theorem optional_moves {walk : Node → Walk Node} {n : Node}
    (h : n = .missing ∨ (walk n).Moves f (Node.mapLoc f) (walk (n.mapLoc f))) :
    (optional walk n).Moves f (Node.mapLoc f) (optional walk (n.mapLoc f)) := by
  unfold optional
  rw [Node.isMissing_mapLoc]
  split
  · exact .pure n
  · next hmissing =>
    rcases h with rfl | h
    · exact absurd rfl hmissing
    · exact h

/-- A statement or a parameter is rewritten alike when it is moved. -/
def StmtMoves (f : Loc → Loc) (r : Rewriter) : NodeSort → Node → Prop
  | .statement, s => (r.stmt s).Moves f (Node.mapLoc f) (r.stmt (s.mapLoc f))
  | .param, p => (r.param p).Moves f (Node.mapLoc f) (r.param (p.mapLoc f))
  | _, _ => True

theorem stmts_moves {body : List Node} (h : ∀ s ∈ body, StmtMoves f r .statement s) :
    (r.stmts body).Moves f (Node.mapLocs f) (r.stmts (Node.mapLocs f body)) := by
  induction body with
  | nil => exact .pure []
  | cons s rest ih =>
    obtain ⟨hfirst, hlater⟩ := List.forall_mem_cons.1 h
    rw [Node.mapLocs, stmts, stmts]
    exact Walk.Moves.bind hfirst fun s => (ih hlater).last fun later => rfl

theorem block_moves {loc : Loc} {body : List Node} (h : ∀ s ∈ body, StmtMoves f r .statement s) :
    StmtMoves f r .statement (.block loc body) := by
  rw [StmtMoves, Node.mapLoc, stmt, stmt]
  exact (stmts_moves h).last fun body => rfl

/-- The walk over a statement or a parameter of the host grammar. -/
theorem stmt_moves (hf : Loc.IsMove f) (hr : r.parsers = .host)
    {sort : NodeSort} {n : Node} (h : HasSort Interpolation.Ordered sort n) :
    StmtMoves f r sort n := by
  have moves {sort : NodeSort} {n : Node} (h : HasSort Interpolation.Ordered sort n) :
      RewriteMoves f r r.nested sort n := rewrite_moves hf hr (nested_moves hf hr) h
  induction h with
  | declare ht hvalue =>
    rw [StmtMoves, Node.mapLoc, stmt, stmt]
    refine (optional_moves ((moves ht).imp_right fun h => h.2)).bind fun t => ?_
    exact ((moves hvalue).2.1 _).last fun value => rfl
  | giveBack h =>
    rw [StmtMoves, Node.mapLoc, stmt, stmt]
    exact (optional_moves ((moves h).imp_right fun h => h.2.1 _)).last fun value => rfl
  | evaluate h =>
    rw [StmtMoves, Node.mapLoc, stmt, stmt]
    exact ((moves h).2.1 _).last fun value => rfl
  | block _ ih => exact block_moves ih
  | function _ hresult _ ihparams _ ihbody =>
    rw [StmtMoves, Node.mapLoc, stmt, stmt, Node.mapLocs_eq_map]
    refine (Walk.Moves.mapM ihparams).bind fun params => ?_
    refine (optional_moves ((moves hresult).imp_right fun h => h.2)).bind fun result => ?_
    refine Walk.Moves.last (block_moves ihbody) fun body => ?_
    rw [Node.mapLoc, Node.mapLocs_eq_map]
  | param ht hdefault =>
    rw [StmtMoves, Node.mapLoc, param, param]
    refine (optional_moves ((moves hdefault).imp_right fun h => h.2.1 _)).bind fun default => ?_
    exact (moves ht).2.last fun t => rfl
  | _ => trivial

/-- A program behind line feeds and spaces is read and rewritten as before. All locations of the
result and of the sites are moved with the source, and so are the places that are reported. -/
theorem program_indented (hr : r.parsers = .host) {source : Text} {p : Program}
    (hp : parseProgram source = .ok p) (lines columns : Nat) :
    let origin : Loc := ⟨lines + 1, columns + 1⟩
    let moved := p.map (Node.relocate origin)
    parseProgram (source.indented lines columns) = .ok moved ∧
      (r.program moved).result = (r.program p).result.map (List.map (Node.relocate origin)) ∧
      (r.program moved).log.sites = (r.program p).log.sites.map (Site.mapLoc (·.within origin)) ∧
      List.Forall₂ (Diagnostic.IsMoved (·.within origin)) (r.program p).log.diagnostics
        (r.program moved).log.diagnostics := by
  intro origin moved
  refine ⟨parseProgram_indented hp lines columns, ?_⟩
  have hordered : ∀ s ∈ p, HasSort Interpolation.Ordered .statement s := fun s hs =>
    (hasSort_of_parseProgram hp s hs).mono fun i hi =>
      Interpolation.ordered_of_laidOut_source hi.1
  have hmoves := stmts_moves fun s hs =>
    stmt_moves (Loc.isMove_within origin) hr (hordered s hs)
  have hmap : Node.mapLocs (·.within origin) = List.map (Node.relocate origin) :=
    funext (Node.mapLocs_eq_map _)
  rw [hmap] at hmoves
  exact ⟨hmoves.result, hmoves.sites, hmoves.diagnostics⟩

theorem program_indented_call :
    let source := callSource .interspersed (embed ['a'] [(.name ['x'], [])])
    let moved := List.map (Node.relocate ⟨2, 3⟩)
    ∃ p, ({} : Rewriter).parsers = .host ∧ parseProgram source = .ok p ∧
      parseProgram (source.indented 1 2) = .ok (moved p) ∧
      (({} : Rewriter).program (moved p)).result =
        (({} : Rewriter).program p).result.map moved ∧
      (({} : Rewriter).program (moved p)).log.sites =
        (({} : Rewriter).program p).log.sites.map (Site.mapLoc (·.within ⟨2, 3⟩)) ∧
      List.Forall₂ (Diagnostic.IsMoved (·.within ⟨2, 3⟩))
        (({} : Rewriter).program p).log.diagnostics
        (({} : Rewriter).program (moved p)).log.diagnostics := by
  obtain ⟨_, _, _, _, hparse, -⟩ :=
    parseProgram_callSource .interspersed (embed ['a'] [(.name ['x'], [])])
  exact ⟨_, rfl, hparse, program_indented (r := {}) rfl hparse 1 2⟩

end Rewriter

end Splice
