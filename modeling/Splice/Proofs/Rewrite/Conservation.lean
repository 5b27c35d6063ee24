import Splice.Proofs.Body.Positions
import Splice.Proofs.Embedding.Arguments
import Splice.Proofs.Parse.Trees
import Splice.Proofs.Rewrite.Conserves
import Splice.Proofs.Rewrite.LiteralFree

/-!
# Rewriting loses no literal

* `Rewriter.splice_conserves`: a literal in an argument list is lowered or reported.
* `rewrite_conserves`: the walk over a tree of the host grammar.
* `Rewriter.program_conserves`: the walk over a program.
-/

namespace Splice

/-- The ledger of a tree. -/
def Node.ledger (n : Node) : Ledger := ⟨n.literals, []⟩

/-- The ledger of an argument list whose lowered literals are not recorded yet. -/
def argsLedger (args : List Node × List (List Argument)) : Ledger :=
  ⟨Node.literalsOf args.1, args.2⟩

/-- The ledger of a row of trees. -/
def rowLedger (ns : List Node) : Ledger := ⟨Node.literalsOf ns, []⟩

namespace Rewriter

variable {r : Rewriter}

theorem reject_conserves (hr : r.parsers = .host) {i : Interpolation} (hi : i.Ordered)
    (place : Text) : (r.reject i place).Conserves .none 1 fun _ => ⟨[i], []⟩ := by
  have hspec := Interpolation.lower_spec hi (.other place) r.file
  unfold reject
  rw [hr]
  cases hlower : i.lower (.other place) .host r.file with
  | error failure => rw [hlower] at hspec; exact hspec
  | ok result =>
    rw [hlower] at hspec
    cases result with
    | ok lowering => cases hspec.1
    | error d => exact ⟨⟨[i], rfl, .cons hspec .nil⟩, rfl⟩

theorem argumentNode_conserves {nested : Node → Walk Node} {loc : Loc} {arg : Argument}
    (hnested : ∀ role source node, arg = .value role source node →
      (nested node).Conserves .none node.literals.length Node.ledger) :
    (argumentNode nested loc arg).Conserves .none arg.literals.length Node.ledger := by
  cases arg with
  | text t => exact .pure rfl
  | value role source node => exact hnested role source node rfl

theorem mapM_conserves {α : Type} {f : α → Walk Node} {count : α → Nat} {as : List α}
    (h : ∀ a ∈ as, (f a).Conserves .none (count a) Node.ledger) :
    (as.mapM f).Conserves .none (as.map count).sum rowLedger := by
  induction as with
  | nil => exact .pure rfl
  | cons a as ih =>
    obtain ⟨hfirst, hlater⟩ := List.forall_mem_cons.1 h
    rw [List.mapM_cons, List.map_cons, List.sum_cons]
    refine hfirst.bind fun n => ?_
    refine Walk.Conserves.last (ih hlater) fun ns => .pure ?_
    simp [Node.ledger, rowLedger, Node.literalsOf]

/-- Once the arguments of a literal are rewritten, the literal is lowered. -/
theorem lowered_conserves {x : Walk (List Node)} {args : List Argument}
    (hx : x.Conserves .none (args.map fun a => a.literals.length).sum rowLedger) :
    (x >>= fun ns => pure (ns, [args])).Conserves .none 1 argsLedger := by
  unfold Walk.Conserves at hx ⊢
  cases hresult : x.result with
  | error failure =>
    rw [hresult] at hx
    rw [Walk.bind_of_error hresult]
    exact hx
  | ok ns =>
    rw [hresult] at hx
    obtain ⟨⟨left, hleft, hreported⟩, hcount⟩ := hx
    rw [Walk.result_bind hresult, Walk.log_bind hresult, Walk.log_pure, Log.append_empty]
    refine ⟨⟨left, hleft, hreported⟩, ?_⟩
    have hinserted : (insertedLiterals [args]).length =
        (args.map fun a => a.literals.length).sum := by
      simp [insertedLiterals, List.length_flatMap]
    simp only [Ledger.none, rowLedger, argsLedger, List.length_nil, List.length_singleton,
      insertedLiterals_nil] at hcount ⊢
    omega

/-- A literal in an argument list is lowered, and so are the literals in its groups, or it stays and
is reported. -/
theorem splice_conserves (hr : r.parsers = .host) {nested : Interpolation → Node → Walk Node}
    {i : Interpolation} (hi : i.Ordered)
    (hnested : ∀ node, i.Inserts node →
      (nested i node).Conserves .none node.literals.length Node.ledger) (context : Context) :
    (r.splice nested context i).Conserves .none 1 argsLedger := by
  have hspec := Interpolation.lower_spec hi context r.file
  unfold splice
  rw [hr]
  cases hlower : i.lower context .host r.file with
  | error failure => rw [hlower] at hspec; exact hspec
  | ok result =>
    rw [hlower] at hspec
    cases result with
    | error d => exact ⟨⟨[i], rfl, .cons hspec .nil⟩, rfl⟩
    | ok lowering =>
      obtain ⟨-, hvalues⟩ := hspec
      have hnodes : ∀ arg ∈ lowering.args,
          (argumentNode (nested i) i.loc arg).Conserves .none arg.literals.length Node.ledger := by
        intro arg hmem
        refine argumentNode_conserves ?_
        rintro role source node rfl
        exact hnested node (hvalues role source node hmem)
      exact lowered_conserves (mapM_conserves hnodes)

/-- A site records what the literals of its argument list became. -/
theorem record_conserves {loc : Loc} {node : Node} {lowered : List (List Argument)}
    {literals : List Interpolation} {view : Node → Ledger} (hview : view node = ⟨literals, []⟩) :
    (record loc node lowered).Conserves ⟨literals, lowered⟩ 0 view := by
  cases lowered with
  | nil =>
    rw [record_nil]
    exact .pure hview
  | cons args lowered =>
    rw [record_cons]
    refine ⟨⟨[], ?_, .nil⟩, ?_⟩
    · simp [hview]
    · simp [hview, Log.lowered]

end Rewriter

/-! ## Trees -/

section Trees

variable {r : Rewriter} {nested : Interpolation → Node → Walk Node} {Q : Interpolation → Prop}
  {reserved : Bool}

/-- What rewriting a tree of some sort comes to. -/
def RewriteConserves (r : Rewriter) (nested : Interpolation → Node → Walk Node) :
    NodeSort → Node → Prop
  | .expr, n | .templateArg, n => n.isType = false ∧
    (∀ place, (n.rewrite r nested place).Conserves .none n.literals.length Node.ledger) ∧
    ∀ context i, n = .interpolation i →
      (r.splice nested context i).Conserves .none 1 argsLedger
  | .type _, n => n.isType = true ∧
    (n.rewriteType r nested).Conserves .none n.literals.length Node.ledger
  | .optional sort, n => n = .missing ∨ RewriteConserves r nested sort n
  | .statement, _ | .param, _ => True

theorem rewriteArgs_conserves {args : List Node} {sort : NodeSort}
    (hsort : sort = .expr ∨ sort = .templateArg)
    (h : ∀ a ∈ args, RewriteConserves r nested sort a) (context : Context) :
    (Node.rewriteArgs r nested context args).Conserves .none (Node.literalsOf args).length
      argsLedger := by
  induction args with
  | nil => exact .pure rfl
  | cons a rest ih =>
    obtain ⟨hfirst, hlater⟩ := List.forall_mem_cons.1 h
    have ih := ih hlater
    -- The two sorts of arguments ask for the same of an argument.
    obtain ⟨-, hfirst, hspliced⟩ : RewriteConserves r nested .expr a := by
      rcases hsort with rfl | rfl <;> exact hfirst
    rw [Node.literalsOf, List.length_append]
    by_cases ha : ∃ i, a = .interpolation i
    · obtain ⟨i, rfl⟩ := ha
      have hspliced := hspliced context i rfl
      rw [Node.rewriteArgs]
      refine hspliced.bind fun out => ?_
      obtain ⟨nodes, lowered⟩ := out
      refine Walk.Conserves.last ih fun later => .pure ?_
      simp [argsLedger]
    · rw [Node.rewriteArgs_cons fun i hi => ha ⟨i, hi⟩]
      refine (hfirst context.describe).bind fun node => ?_
      refine Walk.Conserves.last ih fun later => .pure ?_
      simp [argsLedger, Node.ledger, Node.literalsOf]

theorem rewriteTypes_singleton {t : Node} (h : RewriteConserves r nested (.type reserved) t) :
    (Node.rewriteTypes r nested [t]).Conserves .none (Node.literalsOf [t]).length rowLedger := by
  obtain ⟨htype, h⟩ := h
  rw [Node.rewriteTypes, if_pos htype, Node.literalsOf, Node.literalsOf, List.append_nil]
  refine h.last fun t => .pure ?_
  simp [Node.ledger, rowLedger, Node.literalsOf]

/-- The last step of the walk over a type goes over its size. -/
theorem rewriteSize_conserves {size : Node} (h : RewriteConserves r nested (.optional .expr) size)
    {start : Ledger} {f : Node → Node}
    (hf : ∀ size, (f size).ledger = start ++ size.ledger) :
    ((if size.isMissing then pure size else size.rewrite r nested "array size") >>= fun size =>
      pure (f size)).Conserves start size.literals.length Node.ledger := by
  rcases h with rfl | ⟨-, h, -⟩
  · refine .pure ?_
    rw [hf]
    simp [Node.ledger, Node.literals, Ledger.append_def]
  · by_cases hmissing : size.isMissing = true
    · obtain rfl := Node.isMissing_iff.1 hmissing
      refine .pure ?_
      rw [hf]
      simp [Node.ledger, Node.literals, Ledger.append_def]
    · rw [if_neg hmissing]
      exact (h _).last fun size => .pure (hf size)

/-- The walk over a type of the host grammar that is no template. -/
theorem rewriteType_plain {loc : Option Loc} {ident : Text} {args : List Node} {size : Node}
    (hargs : (Node.rewriteTypes r nested args).Conserves .none (Node.literalsOf args).length
      rowLedger)
    (hsize : RewriteConserves r nested (.optional .expr) size) :
    (Node.rewriteType r nested (.type loc ident false args size)).Conserves .none
      (Node.type loc ident false args size).literals.length Node.ledger := by
  rw [rewriteType_plain_eq, Node.literals, List.length_append]
  refine hargs.bind fun inner => rewriteSize_conserves hsize fun size => ?_
  simp [Node.ledger, rowLedger, Node.literals]

/-- The walk over a template of types. -/
theorem rewriteType_template {loc : Option Loc} {ident : Text} {args : List Node}
    (hargs : ∀ a ∈ args, RewriteConserves r nested .templateArg a) :
    (Node.rewriteType r nested (.type loc ident true args .missing)).Conserves .none
      (Node.type loc ident true args .missing).literals.length Node.ledger := by
  rw [Node.rewriteType, rewriteTypes_of_args fun a ha => (hargs a ha).1, Node.literals,
    Node.literals, List.append_nil]
  simp only [if_true, pure_bind]
  refine (rewriteArgs_conserves (.inr rfl) hargs _).last fun ⟨args, lowered⟩ => ?_
  have hrecord {loc : Loc} {node : Node} :
      (Rewriter.record loc node lowered).Conserves (.none ++ argsLedger (args, lowered)) 0
        fun _ => ⟨Node.literalsOf args, []⟩ := Rewriter.record_conserves rfl
  refine hrecord.seq fun _ => .pure ?_
  simp [Node.ledger, Node.literals]

/-- Rewriting a tree of the host grammar loses no literal. -/
theorem rewrite_conserves (hr : r.parsers = .host) (hQ : ∀ i, Q i → i.Ordered)
    (hnested : ∀ i, Q i → ∀ node, i.Inserts node →
      (nested i node).Conserves .none node.literals.length Node.ledger)
    {sort : NodeSort} {n : Node} (h : HasSort Q sort n) : RewriteConserves r nested sort n := by
  -- What a node comes to is the sum over its parts, in the order of the walk; the sites add what
  -- the literals of an argument list were lowered to.
  induction h with
  | name => exact ⟨rfl, fun _ => .pure rfl, nofun⟩
  | literal => exact ⟨rfl, fun _ => .pure rfl, nofun⟩
  | @interpolation i h =>
    refine ⟨rfl, fun place => ?_, fun context i' hi => ?_⟩
    · rw [Node.rewrite]
      exact (Rewriter.reject_conserves hr (hQ i h) place).last fun _ => .pure rfl
    · cases hi
      exact Rewriter.splice_conserves hr (hQ i h) (hnested i h) context
  | unary hop _ ih =>
    refine ⟨rfl, fun place => ?_, nofun⟩
    rw [Node.rewrite]
    exact (ih.2.1 _).last fun operand => .pure rfl
  | binary hop _ _ ihleft ihright =>
    refine ⟨rfl, fun place => ?_, nofun⟩
    rw [Node.rewrite, Node.literals, List.length_append]
    refine (ihleft.2.1 _).bind fun left => (ihright.2.1 _).last fun right => .pure ?_
    simp [Node.ledger, Node.literals]
  | call _ _ ih ihargs =>
    refine ⟨rfl, fun place => ?_, nofun⟩
    rw [Node.rewrite, Node.literals, List.length_append]
    refine (ih.2.1 _).bind fun callee => ?_
    refine (rewriteArgs_conserves (.inl rfl) ihargs _).last fun ⟨args, lowered⟩ => ?_
    refine Rewriter.record_conserves ?_
    simp [Node.ledger, Node.literals, argsLedger]
  | member _ h ih =>
    refine ⟨rfl, fun place => ?_, nofun⟩
    rw [Node.rewrite]
    exact (ih.2.1 _).last fun value => .pure rfl
  | index _ _ ihvalue ihoffset =>
    refine ⟨rfl, fun place => ?_, nofun⟩
    rw [Node.rewrite, Node.literals, List.length_append]
    refine (ihvalue.2.1 _).bind fun value => (ihoffset.2.1 _).last fun offset => .pure ?_
    simp [Node.ledger, Node.literals]
  | instantiate _ _ ih ihargs =>
    refine ⟨rfl, fun place => ?_, nofun⟩
    rw [Node.rewrite, Node.literals, List.length_append]
    refine (ih.2.1 _).bind fun template => ?_
    refine (rewriteArgs_conserves (.inr rfl) ihargs _).last fun ⟨args, lowered⟩ => ?_
    refine Rewriter.record_conserves ?_
    simp [Node.ledger, Node.literals, argsLedger]
  | mixin _ ihargs =>
    refine ⟨rfl, fun place => ?_, nofun⟩
    rw [Node.rewrite]
    refine (rewriteArgs_conserves (.inl rfl) ihargs _).last fun ⟨args, lowered⟩ => ?_
    exact Rewriter.record_conserves rfl
  | exprArg _ ih => exact ih
  | typeArg _ ih =>
    refine ⟨rfl, fun place => ?_, nofun⟩
    rw [Node.rewrite]
    exact ih.2.last fun t => .pure rfl
  | builtin b => exact ⟨rfl, rewriteType_plain (.pure rfl) (.inl rfl)⟩
  | qualified q _ ih => exact ⟨rfl, rewriteType_plain (rewriteTypes_singleton ih) (.inl rfl)⟩
  | named h => exact ⟨rfl, rewriteType_plain (.pure rfl) (.inl rfl)⟩
  | template h _ ihargs => exact ⟨rfl, rewriteType_template ihargs⟩
  | pointer _ ih => exact ⟨rfl, rewriteType_plain (rewriteTypes_singleton ih) (.inl rfl)⟩
  | array _ _ ih ihsize => exact ⟨rfl, rewriteType_plain (rewriteTypes_singleton ih) ihsize⟩
  | anyType _ ih => exact ih
  | missing => exact .inl rfl
  | present _ ih => exact .inr ih
  | declare | giveBack | evaluate | block | function | param => trivial

end Trees

/-! ## Programs -/

namespace Rewriter

variable {r : Rewriter}

/-- Literals in what came out of a literal are shorter than it, so they are followed far enough. -/
theorem nestedWithin_conserves (hr : r.parsers = .host) {levels : Nat} (hlevels : 0 < levels)
    {n : Node} (h : IsInserted (fun i => i.Ordered ∧ i.body.chars.length < levels) n) :
    (r.nestedWithin levels n).Conserves .none n.literals.length Node.ledger := by
  -- The induction is on the number of passes that are left, which is more than the body of any
  -- literal is long.
  induction levels generalizing n with
  | zero => cases hlevels
  | succ levels ih =>
    have hnested (i : Interpolation) (hi : i.Ordered ∧ i.body.chars.length < levels + 1)
        (node : Node) (hnode : i.Inserts node) :
        (r.nestedWithin levels node).Conserves .none node.literals.length Node.ledger := by
      obtain ⟨hpos, hnode⟩ := hnode
      have hle := Nat.le_of_lt_succ hi.2
      refine ih (Nat.lt_of_lt_of_le hpos hle) (hnode.mono fun j hj => ?_)
      exact ⟨hj.1, Nat.lt_of_lt_of_le hj.2 hle⟩
    rw [nestedWithin]
    cases h with
    | name => exact .pure rfl
    | expr h => exact (rewrite_conserves hr (fun i hi => hi.1) hnested h).2.1 _
    | type loc h =>
      rw [Node.rewrite]
      exact (rewrite_conserves hr (fun i hi => hi.1) hnested h).2.last fun t => .pure rfl

theorem nested_conserves (hr : r.parsers = .host) {i : Interpolation} {n : Node}
    (h : i.Inserts n) : (r.nested i n).Conserves .none n.literals.length Node.ledger := by
  obtain ⟨hpos, h⟩ := h
  exact nestedWithin_conserves hr (Nat.lt_of_lt_of_le hpos (Nat.le_add_right _ _))
    (h.mono fun j hj => ⟨hj.1, Nat.lt_of_lt_of_le hj.2 (Nat.le_add_right _ _)⟩)

theorem rewriteConserves (hr : r.parsers = .host) {sort : NodeSort} {n : Node}
    (h : HasSort Interpolation.Ordered sort n) : RewriteConserves r r.nested sort n :=
  rewrite_conserves hr (fun _ hi => hi) (fun _ _ _ => nested_conserves hr) h

theorem optional_conserves {f : Node → Walk Node} {n : Node}
    (h : n = .missing ∨ (f n).Conserves .none n.literals.length Node.ledger) :
    (optional f n).Conserves .none n.literals.length Node.ledger := by
  unfold optional
  by_cases hmissing : n.isMissing = true
  · rw [if_pos hmissing, Node.isMissing_iff.1 hmissing]
    exact .pure rfl
  · rw [if_neg hmissing]
    rcases h with rfl | h
    · exact absurd rfl hmissing
    · exact h

/-- What rewriting a statement or a parameter comes to. -/
def StmtConserves (r : Rewriter) : NodeSort → Node → Prop
  | .statement, n => (r.stmt n).Conserves .none n.literals.length Node.ledger
  | .param, n => (r.param n).Conserves .none n.literals.length Node.ledger
  | _, _ => True

theorem stmts_conserves {body : List Node} (h : ∀ s ∈ body, StmtConserves r .statement s) :
    (r.stmts body).Conserves .none (Node.literalsOf body).length rowLedger := by
  induction body with
  | nil => exact .pure rfl
  | cons s rest ih =>
    obtain ⟨hfirst, hlater⟩ := List.forall_mem_cons.1 h
    rw [stmts, Node.literalsOf, List.length_append]
    refine Walk.Conserves.bind hfirst fun s => (ih hlater).last fun later => .pure ?_
    simp [Node.ledger, rowLedger, Node.literalsOf]

theorem block_conserves {loc : Loc} {body : List Node}
    (h : ∀ s ∈ body, StmtConserves r .statement s) :
    (r.stmt (.block loc body)).Conserves .none (Node.block loc body).literals.length
      Node.ledger := by
  rw [stmt]
  exact (stmts_conserves h).last fun body => .pure rfl

/-- Rewriting a statement or a parameter of the host grammar loses no literal. -/
theorem stmt_conserves (hr : r.parsers = .host) {sort : NodeSort} {n : Node}
    (h : HasSort Interpolation.Ordered sort n) : StmtConserves r sort n := by
  -- Expressions and types are settled, so of each statement only the sum over its parts remains.
  have hexpr {e : Node} (h : HasSort Interpolation.Ordered .expr e) (place : Text) :
      (r.expr place e).Conserves .none e.literals.length Node.ledger :=
    (rewriteConserves hr h).2.1 place
  have hoptional {sort : NodeSort} {f : Node → Walk Node} {n : Node}
      (h : HasSort Interpolation.Ordered (.optional sort) n)
      (hf : RewriteConserves r r.nested sort n →
        (f n).Conserves .none n.literals.length Node.ledger) :
      (optional f n).Conserves .none n.literals.length Node.ledger :=
    optional_conserves ((rewriteConserves hr h).imp_right hf)
  induction h with
  | declare ht hvalue =>
    rw [StmtConserves, stmt, Node.literals, List.length_append]
    refine (hoptional ht fun h => h.2).bind fun t => (hexpr hvalue _).last fun value => .pure ?_
    simp [Node.ledger, Node.literals]
  | giveBack h =>
    rw [StmtConserves, stmt]
    exact (hoptional h fun h => h.2.1 _).last fun value => .pure rfl
  | evaluate h =>
    rw [StmtConserves, stmt]
    exact (hexpr h _).last fun value => .pure rfl
  | block _ ih => exact block_conserves ih
  | @function _ _ _ params _ _ _ hresult _ ihparams _ ihbody =>
    have hcount : (Node.literalsOf params).length =
        (params.map fun p => p.literals.length).sum := by
      rw [Node.literalsOf_eq_flatMap, List.length_flatMap]
    rw [StmtConserves, stmt, Node.literals, List.length_append, List.length_append, Nat.add_assoc,
      hcount]
    refine (mapM_conserves ihparams).bind fun params => ?_
    refine (hoptional hresult fun h => h.2).bind fun result => ?_
    refine (block_conserves ihbody).last fun body => .pure ?_
    simp [Node.ledger, rowLedger, Node.literals]
  | param ht hdefault =>
    rw [StmtConserves, param, Node.literals, List.length_append]
    refine (hoptional hdefault fun h => h.2.1 _).bind fun default => ?_
    refine (rewriteConserves hr ht).2.last fun t => .pure ?_
    simp [Node.ledger, Node.literals]
  -- The other sorts belong to no statement and no parameter.
  | _ => trivial

theorem stmts_conserves_of_parseProgram (hr : r.parsers = .host) {source : Text} {p : Program}
    (hp : parseProgram source = .ok p) :
    (r.program p).Conserves .none (Node.literalsOf p).length rowLedger := by
  refine stmts_conserves fun s hs => stmt_conserves hr ?_
  exact (hasSort_of_parseProgram hp s hs).mono fun i hi =>
    Interpolation.ordered_of_laidOut_source hi.1

/-- Rewriting a parsed program fails only over an integer that is too long. -/
theorem isLongInteger_of_program (hr : r.parsers = .host) {source : Text} {p : Program}
    (hp : parseProgram source = .ok p) {failure : Failure}
    (h : (r.program p).result = .error failure) : failure.IsLongInteger := by
  have hconserves := stmts_conserves_of_parseProgram hr hp
  rw [Walk.Conserves, h] at hconserves
  exact hconserves

/-- Rewriting a parsed program loses no literal: those that stand in the result are reported one by
one, in their order and each at a place in it, and all others are lowered at some site. So nothing
is reported exactly if no literal is left, and a program without literals stays as it is. -/
theorem program_conserves (hr : r.parsers = .host) {source : Text} {p p' : Program}
    (hp : parseProgram source = .ok p) (h : (r.program p).result = .ok p') :
    let log := (r.program p).log
    List.Forall₂ Interpolation.Holds (Node.literalsOf p') log.diagnostics ∧
      (log.sites.map fun site => site.lowered.length).sum + log.diagnostics.length =
        (Node.literalsOf p).length +
          (insertedLiterals (log.sites.flatMap Site.lowered)).length ∧
      (log.diagnostics = [] ↔ Node.literalsOf p' = []) ∧
      (Node.literalsOf p = [] → p' = p ∧ log.sites = [] ∧ log.diagnostics = []) := by
  intro log
  have hconserves := stmts_conserves_of_parseProgram hr hp
  rw [Walk.Conserves, h] at hconserves
  obtain ⟨⟨left, hleft, hreported⟩, hcount⟩ := hconserves
  -- What the ledger counts as left are the literals of the result.
  obtain rfl : Node.literalsOf p' = left := hleft
  have hlowered : log.lowered.length = (log.sites.map fun site => site.lowered.length).sum :=
    List.length_flatMap
  refine ⟨hreported, ?_, ?_, fun hfree => ?_⟩
  · have hcount : log.lowered.length + 0 + log.diagnostics.length + 0 =
      (Node.literalsOf p).length + 0 + (insertedLiterals log.lowered).length + 0 := hcount
    rw [hlowered] at hcount
    exact hcount
  · rw [← List.length_eq_zero_iff, ← List.length_eq_zero_iff (l := Node.literalsOf p'),
      hreported.length_eq]
  -- Without literals the walk is `pure`, whose record is empty.
  · have hkeeps := program_literalFree (r := r) (hasSort_of_parseProgram hp) hfree
    have hlog : log = {} := congrArg Walk.log hkeeps
    rw [hkeeps] at h
    cases h
    rw [hlog]
    exact ⟨rfl, rfl, rfl⟩

/-! ## A literal that is left and a literal in a group -/

/-- A literal that is a value and not an argument, and one whose group has a call with a literal,
`let x = i"a"; g(i"$(h(i\"b\"))");`. -/
def keptAndNested : Text := "let x = i\"a\"; g(i\"$(h(i\\\"b\\\"))\");"

namespace keptAndNested

/-- The literal that is left. -/
def kept : Interpolation := ⟨⟨1, 9⟩, .interspersed, ⟨[('a', ⟨1, 11⟩)], ⟨1, 12⟩⟩⟩

/-- The argument. -/
def outer : Interpolation := ⟨⟨1, 17⟩, .interspersed, ⟨[('$', ⟨1, 19⟩), ('(', ⟨1, 20⟩),
  ('h', ⟨1, 21⟩), ('(', ⟨1, 22⟩), ('i', ⟨1, 23⟩), ('"', ⟨1, 24⟩), ('b', ⟨1, 26⟩), ('"', ⟨1, 27⟩),
  (')', ⟨1, 29⟩), (')', ⟨1, 30⟩)], ⟨1, 31⟩⟩⟩

/-- The literal in its group. -/
def inserted : Interpolation := ⟨⟨1, 23⟩, .interspersed, ⟨[('b', ⟨1, 26⟩)], ⟨1, 27⟩⟩⟩

/-- The text of the group. -/
def raw : Text := ['h', '(', 'i', '"', 'b', '"', ')']

/-- The program. -/
def nodes : Program := [.declare ⟨1, 1⟩ ['x'] .missing (.interpolation kept),
  .evaluate ⟨1, 15⟩ (.call ⟨1, 15⟩ (.name ⟨1, 15⟩ ['g']) [.interpolation outer])]

/-- The program behind the rewriting. -/
def rewritten : Program := [.declare ⟨1, 1⟩ ['x'] .missing (.interpolation kept),
  .evaluate ⟨1, 15⟩ (.call ⟨1, 15⟩ (.name ⟨1, 15⟩ ['g'])
    [.call ⟨1, 21⟩ (.name ⟨1, 21⟩ ['h']) [.literal ⟨1, 23⟩ (.string ['b'])]])]

end keptAndNested

open keptAndNested

theorem parseProgram_keptAndNested : parseProgram keptAndNested = .ok keptAndNested.nodes := by
  let value : Token := ⟨.interpolatedLit, ['i', '"', 'a', '"'], 8, ⟨1, 9⟩⟩
  let declaration : List Token := ⟨.keyword .letWord, ['l', 'e', 't'], 0, ⟨1, 1⟩⟩ ::
    ⟨.name, ['x'], 4, ⟨1, 5⟩⟩ :: ([] ++ ⟨.mark .equal, ['='], 6, ⟨1, 7⟩⟩ :: ([value] ++
      [⟨.mark .semicolon, [';'], 12, ⟨1, 13⟩⟩]))
  let call : List Token := [⟨.name, ['g'], 14, ⟨1, 15⟩⟩, ⟨.mark .lparen, ['('], 15, ⟨1, 16⟩⟩,
    ⟨.interpolatedLit, ['i', '"', '$', '(', 'h', '(', 'i', '\\', '"', 'b', '\\', '"', ')', ')',
      '"'], 16, ⟨1, 17⟩⟩, ⟨.mark .rparen, [')'], 31, ⟨1, 32⟩⟩]
  let evaluation : List Token := call ++ [⟨.mark .semicolon, [';'], 32, ⟨1, 33⟩⟩]
  have hdeclaration : Phrase .statement declaration
      (.declare ⟨1, 1⟩ ['x'] .missing (.interpolation kept)) :=
    .declare rfl rfl .noAscription rfl
      (Phrase.toExpr (.ofPrimary (.interpolation rfl rfl)) : Phrase .expr [value] _) rfl
  have hevaluation : Phrase .statement evaluation (.evaluate ⟨1, 15⟩
      (.call ⟨1, 15⟩ (.name ⟨1, 15⟩ ['g']) [.interpolation outer])) :=
    .evaluate (Phrase.callLiteral rfl rfl rfl rfl rfl : Phrase .expr call _) rfl
  have htokens : (Lexed.ofText keptAndNested).tokens = declaration ++ (evaluation ++ []) := by
    decide +kernel
  refine (@parse_eq_ok_iff_isTree .program keptAndNested _).2 ⟨by decide +kernel, ?_⟩
  rw [htokens]
  exact ⟨[(declaration, _), (evaluation, _)], rfl, rfl,
    List.forall_mem_cons.2 ⟨hdeclaration, List.forall_mem_singleton.2 hevaluation⟩⟩

/-- The text of the group is a call with a literal. -/
theorem parseExpr_keptAndNested : parseExpr raw = .ok (.call ⟨1, 1⟩ (.name ⟨1, 1⟩ ['h'])
    [.interpolation ⟨⟨1, 3⟩, .interspersed, ⟨[('b', ⟨1, 5⟩)], ⟨1, 6⟩⟩⟩]) := by
  have htokens : (Lexed.ofText raw).tokens = [⟨.name, ['h'], 0, ⟨1, 1⟩⟩,
      ⟨.mark .lparen, ['('], 1, ⟨1, 2⟩⟩, ⟨.interpolatedLit, ['i', '"', 'b', '"'], 2, ⟨1, 3⟩⟩,
      ⟨.mark .rparen, [')'], 6, ⟨1, 7⟩⟩] := by decide +kernel
  exact parseExpr_callLiteral (by decide +kernel) htokens rfl rfl rfl rfl rfl

/-- Both calls are sites, and the literal that is left is reported. -/
theorem program_keptAndNested :
    (({} : Rewriter).program keptAndNested.nodes).result = .ok rewritten ∧
      (({} : Rewriter).program keptAndNested.nodes).log.sites.length = 2 ∧
      (insertedLiterals ((({} : Rewriter).program keptAndNested.nodes).log.sites.flatMap
        Site.lowered)).length = 1 := by
  obtain ⟨resolved, hlower⟩ :=
    @Interpolation.lower_group outer raw 10 _ rfl rfl parseExpr_keptAndNested rfl none
  let argument : Node := .call ⟨1, 21⟩ (.name ⟨1, 21⟩ ['h']) [.interpolation inserted]
  have hargument : Insertion.exprNode raw 0 (some outer.locate)
      (.call ⟨1, 1⟩ (.name ⟨1, 1⟩ ['h'])
        [.interpolation ⟨⟨1, 3⟩, .interspersed, ⟨[('b', ⟨1, 5⟩)], ⟨1, 6⟩⟩⟩]) = argument := rfl
  rw [hargument] at hlower
  let node : Node := .call ⟨1, 21⟩ (.name ⟨1, 21⟩ ['h']) [.literal ⟨1, 23⟩ (.string ['b'])]
  let site : Site := ⟨⟨1, 21⟩, node, [[.text ['b']]]⟩
  -- The literal in the group is an argument of the call there, so the second pass lowers it.
  have hnested : ({} : Rewriter).nested outer argument = .of { sites := [site] } (.ok node) :=
    Walk.ext_log rfl rfl
  have hsplice : ({} : Rewriter).splice ({} : Rewriter).nested .callArgument outer =
      .of { sites := [site] } (.ok ([node], [[.value .expression raw argument]])) := by
    -- The long body is lowered once, and the walk is evaluated with what comes out.
    have hlower : Walk.ofFailing (outer.lower .callArgument .host none) =
        pure (.ok ⟨resolved, _⟩) := congrArg Walk.ofFailing hlower
    rw [splice, hlower, pure_bind]
    simp only [List.mapM_cons, List.mapM_nil, argumentNode, hnested]
    exact Walk.ext_log rfl rfl
  let outerSite : Site := ⟨⟨1, 15⟩, .call ⟨1, 15⟩ (.name ⟨1, 15⟩ ['g']) [node],
    [[.value .expression raw argument]]⟩
  have hprogram : ({} : Rewriter).program keptAndNested.nodes = .of ⟨[site, outerSite],
      [kept.diagnostic none { cause := .misplaced .interspersed "variable initializer" }]⟩
        (.ok rewritten) := by
    simp only [keptAndNested.nodes, program, stmts, stmt, expr, Node.rewrite, Node.rewriteArgs,
      hsplice]
    exact Walk.ext_log rfl rfl
  rw [hprogram]
  exact ⟨rfl, rfl, rfl⟩

theorem program_conserves_call :
    ({} : Rewriter).parsers = .host ∧ parseProgram keptAndNested = .ok keptAndNested.nodes ∧
      (({} : Rewriter).program keptAndNested.nodes).result = .ok rewritten ∧
      (Node.literalsOf keptAndNested.nodes).length = 2 ∧ Node.literalsOf rewritten = [kept] ∧
      (({} : Rewriter).program keptAndNested.nodes).log.sites.length = 2 ∧
      (insertedLiterals ((({} : Rewriter).program keptAndNested.nodes).log.sites.flatMap
        Site.lowered)).length = 1 ∧
      let p := keptAndNested.nodes
      let log := (({} : Rewriter).program p).log
      List.Forall₂ Interpolation.Holds (Node.literalsOf rewritten) log.diagnostics ∧
        (log.sites.map fun site => site.lowered.length).sum + log.diagnostics.length =
          (Node.literalsOf p).length +
            (insertedLiterals (log.sites.flatMap Site.lowered)).length ∧
        (log.diagnostics = [] ↔ Node.literalsOf rewritten = []) ∧
        (Node.literalsOf p = [] → rewritten = p ∧ log.sites = [] ∧ log.diagnostics = []) := by
  obtain ⟨hresult, hsites, hinserted⟩ := program_keptAndNested
  exact ⟨rfl, parseProgram_keptAndNested, hresult, rfl, rfl, hsites, hinserted,
    program_conserves rfl parseProgram_keptAndNested hresult⟩

end Rewriter

end Splice
