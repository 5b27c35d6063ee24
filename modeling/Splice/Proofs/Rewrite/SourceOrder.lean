import Splice.Proofs.Rewrite.Depth
import Splice.Proofs.Rewrite.Inserted
import Splice.Proofs.Rewrite.Rejected
import Splice.Proofs.Rewrite.Reports

/-!
# Reports in the order of the source

Rewriting meets the literals of a tree one after the other, and whatever one of them gives rise to
starts inside it. So the reports are in the order of the source, except that the default value of a
parameter comes before the type in front of it.

* `ReportedInTurn`: what literals give rise to, one after the other.
* `Walk.InTurn`: a walk that reports this.
* `reportsInTurn`: the walk over a tree of the host grammar.
* `Rewriter.arranges`: what a literal gives rise to is in order at every depth.
* `Rewriter.program_sourceOrder`: the walk over a program.
-/

namespace Splice

theorem Loc.lt_of_le_of_lt {a b c : Loc} (h : a ≤ b) (h' : b < c) : a < c := by
  rw [lt_def] at *
  rw [le_def] at h
  omega

/-- One stretch starts before the other one. -/
def Span.StartsBefore (s s' : Span) : Prop :=
  ∃ a b : Loc, s.line = some a.line ∧ s.column = some a.column ∧ s'.line = some b.line ∧
    s'.column = some b.column ∧ a < b

/-! ## What literals give rise to -/

theorem Interpolation.Before.startsBefore {i j : Interpolation} (h : i.Before j) {d d' : Diagnostic}
    (hd : i.Holds d) (hd' : j.Holds d') : d.span.StartsBefore d'.span := by
  obtain ⟨a, hline, hcolumn, -, hstop⟩ := hd
  obtain ⟨b, hline', hcolumn', hstart, -⟩ := hd'
  exact ⟨a, b, hline, hcolumn, hline', hcolumn',
    Loc.lt_of_lt_of_le (Loc.lt_of_le_of_lt hstop h) hstart⟩

/-- The reports start in the literal, one behind the other. -/
def Interpolation.ReportedAs (i : Interpolation) (ds : List Diagnostic) : Prop :=
  (∀ d ∈ ds, i.Holds d) ∧ ds.Pairwise fun d d' => d.span.StartsBefore d'.span

/-- The reports are what the literals give rise to, one after the other. -/
inductive ReportedInTurn : List Interpolation → List Diagnostic → Prop
  | nil : ReportedInTurn [] []
  | cons {i : Interpolation} {is : List Interpolation} {ds later : List Diagnostic}
    (h : i.ReportedAs ds) (hlater : ReportedInTurn is later) :
    ReportedInTurn (i :: is) (ds ++ later)

namespace ReportedInTurn

variable {i : Interpolation} {is js : List Interpolation} {ds ds' : List Diagnostic}

theorem single (h : i.ReportedAs ds) : ReportedInTurn [i] ds := by
  rw [← List.append_nil ds]
  exact .cons h .nil

theorem append (h : ReportedInTurn is ds) (h' : ReportedInTurn js ds') :
    ReportedInTurn (is ++ js) (ds ++ ds') := by
  induction h with
  | nil => exact h'
  | cons h _ ih =>
    rw [List.append_assoc]
    exact .cons h ih

theorem holds (h : ReportedInTurn is ds) : ∀ d ∈ ds, ∃ i ∈ is, i.Holds d := by
  induction h with
  | nil => nofun
  | cons h _ ih =>
    refine List.forall_mem_append.2 ⟨fun d hd => ⟨_, List.mem_cons_self, h.1 d hd⟩, fun d hd => ?_⟩
    obtain ⟨j, hj, hd⟩ := ih d hd
    exact ⟨j, List.mem_cons_of_mem _ hj, hd⟩

/-- The order of the literals is that of the reports. -/
theorem pairwise (h : ReportedInTurn is ds) {R : Interpolation → Interpolation → Prop}
    {S : Diagnostic → Diagnostic → Prop} (hrow : is.Pairwise R)
    (hsame : ∀ d d', d.span.StartsBefore d'.span → S d d')
    (hR : ∀ i j, R i j → ∀ d d', i.Holds d → j.Holds d' → S d d') : ds.Pairwise S := by
  induction h with
  | nil => exact .nil
  | cons h hlater ih =>
    obtain ⟨hfirst, hrow⟩ := List.pairwise_cons.1 hrow
    refine List.pairwise_append.2 ⟨h.2.imp fun {d d'} => hsame d d', ih hrow, ?_⟩
    intro d hd d' hd'
    obtain ⟨j, hj, hheld⟩ := hlater.holds d' hd'
    exact hR _ j (hfirst j hj) d d' (h.1 d hd) hheld

/-- What the literals inside another one give rise to is what that one does. -/
theorem reportedAs (h : ReportedInTurn is ds) (hrise : is.Pairwise Interpolation.Before)
    (hinside : ∀ j ∈ is, i.Encloses j) : i.ReportedAs ds := by
  refine ⟨fun d hd => ?_, h.pairwise hrise (fun _ _ hd => hd) fun _ _ hij _ _ =>
    hij.startsBefore⟩
  obtain ⟨j, hj, hheld⟩ := h.holds d hd
  exact (hinside j hj).holds hheld

end ReportedInTurn

/-! ## The judgement -/

namespace Walk

variable {α β : Type} {is later : List Interpolation}

/-- Unless the walk fails, it reports what the literals give rise to, one after the other. -/
def InTurn (is : List Interpolation) (w : Walk α) : Prop := w.Ends fun _ ds => ReportedInTurn is ds

namespace InTurn

theorem pure (a : α) : (Pure.pure a : Walk α).InTurn [] := Ends.pure .nil

theorem bind {x : Walk α} {f : α → Walk β} (hx : x.InTurn is) (hf : ∀ a, (f a).InTurn later) :
    (x >>= f).InTurn (is ++ later) :=
  Ends.bind hx fun a _ _ h => Ends.imp (hf a) fun _ _ _ h' => h.append h'

/-- A step that meets no literal. -/
theorem seq {x : Walk α} {f : α → Walk β} (hx : x.InTurn is) (hf : ∀ a, (f a).InTurn []) :
    (x >>= f).InTurn is := by
  rw [← List.append_nil is]
  exact hx.bind hf

theorem last {x : Walk α} (hx : x.InTurn is) (f : α → β) :
    (x >>= fun a => Pure.pure (f a)).InTurn is := hx.seq fun _ => pure _

theorem mapM {f : α → Walk β} {literals : α → List Interpolation} {as : List α}
    (h : ∀ a ∈ as, (f a).InTurn (literals a)) : (as.mapM f).InTurn (as.flatMap literals) := by
  induction as with
  | nil => exact .pure _
  | cons a as ih =>
    obtain ⟨hfirst, hlater⟩ := List.forall_mem_cons.1 h
    rw [List.mapM_cons]
    exact hfirst.bind fun _ => (ih hlater).last _

end InTurn

end Walk

/-! ## Literals -/

namespace Rewriter

variable {r : Rewriter} {i : Interpolation}

/-- What comes out of a literal gives rise to reports that start in the literal, one behind the
other. -/
structure Arranges (r : Rewriter) (i : Interpolation) : Prop where
  ordered : i.Ordered
  spliced : ∀ context lowering, i.lower context r.parsers r.file = .ok (.ok lowering) →
    (lowering.args.mapM (argumentNode (r.nested i) i.loc)).Ends fun _ ds => i.ReportedAs ds

theorem reportedAs_rejected (hr : r.parsers = .host) (hi : i.Ordered) {context : Context}
    {d : Diagnostic} (h : i.lower context r.parsers r.file = .ok (.error d)) :
    i.ReportedAs [d] := by
  have hspec := Interpolation.lower_spec hi context r.file
  rw [← hr, h] at hspec
  exact ⟨List.forall_mem_singleton.2 hspec, List.pairwise_singleton _ _⟩

theorem reject_inTurn (hr : r.parsers = .host) (hi : i.Ordered) (place : Text) :
    (r.reject i place).InTurn [i] := by
  unfold reject
  rcases hlower : i.lower (.other place) r.parsers r.file with failure | d | lowering
  · nofun
  · rintro _ -
    exact .single (reportedAs_rejected hr hi hlower)
  -- A literal that is no argument is lowered nowhere.
  · exact absurd hlower (Interpolation.lower_ne_ok rfl lowering)

theorem splice_inTurn (hr : r.parsers = .host) (hi : r.Arranges i) (context : Context) :
    (r.splice r.nested context i).InTurn [i] := by
  unfold splice
  rcases hlower : i.lower context r.parsers r.file with failure | d | lowering
  · nofun
  · rintro _ -
    exact .single (reportedAs_rejected hr hi.ordered hlower)
  · exact (hi.spliced context lowering hlower).last fun _ _ _ h => .single h

theorem record_inTurn (loc : Loc) (node : Node) (lowered : List (List Argument)) :
    (record loc node lowered).InTurn [] :=
  (record_ends loc node lowered).imp fun _ _ _ ⟨_, hds⟩ => hds ▸ .nil

theorem optional_inTurn {f : Node → Walk Node} {n : Node}
    (h : n = .missing ∨ (f n).InTurn n.literals) : (optional f n).InTurn n.literals := by
  unfold optional
  by_cases hmissing : n.isMissing = true
  · obtain rfl := Node.isMissing_iff.1 hmissing
    exact .pure _
  · rw [if_neg hmissing]
    rcases h with rfl | h
    · exact absurd rfl hmissing
    · exact h

end Rewriter

/-! ## Trees -/

/-- Rewriting a tree of some sort reports what its literals give rise to, one after the other. -/
def ReportsInTurn (r : Rewriter) : NodeSort → Node → Prop
  | .expr, n | .templateArg, n => n.isType = false ∧
    (∀ place, (r.expr place n).InTurn n.literals) ∧ ∀ i, n = .interpolation i → r.Arranges i
  | .type _, t => t.isType = true ∧ (r.type t).InTurn t.literals
  | .statement, s => (r.stmt s).InTurn s.literals
  | .param, p => (r.param p).InTurn p.literals
  | .optional sort, n => n = .missing ∨ ReportsInTurn r sort n

section Trees

variable {r : Rewriter}

theorem rewriteArgs_inTurn (hr : r.parsers = .host) {sort : NodeSort}
    (hsort : sort = .expr ∨ sort = .templateArg) {args : List Node}
    (h : ∀ a ∈ args, ReportsInTurn r sort a) (context : Context) :
    (Node.rewriteArgs r r.nested context args).InTurn (Node.literalsOf args) := by
  induction args with
  | nil => exact .pure _
  | cons a rest ih =>
    obtain ⟨hfirst, hlater⟩ := List.forall_mem_cons.1 h
    have ih := ih hlater
    obtain ⟨-, hfirst, hliteral⟩ : ReportsInTurn r .expr a := by
      rcases hsort with rfl | rfl <;> exact hfirst
    by_cases ha : ∃ i, a = .interpolation i
    · obtain ⟨i, rfl⟩ := ha
      rw [Node.rewriteArgs]
      exact (Rewriter.splice_inTurn hr (hliteral i rfl) context).bind fun _ => ih.last _
    · rw [Node.rewriteArgs_cons fun i hi => ha ⟨i, hi⟩]
      exact (hfirst context.describe).bind fun _ => ih.last _

theorem rewriteTypes_inTurn {reserved : Bool} {t : Node} (h : ReportsInTurn r (.type reserved) t) :
    (Node.rewriteTypes r r.nested [t]).InTurn (Node.literalsOf [t]) := by
  obtain ⟨htype, h⟩ := h
  rw [Node.rewriteTypes, if_pos htype]
  exact h.bind fun _ => .last (.pure _) _

/-- The walk over a type that is no template. -/
theorem rewriteType_plain_inTurn {loc : Option Loc} {ident : Text} {args : List Node} {size : Node}
    (hargs : (Node.rewriteTypes r r.nested args).InTurn (Node.literalsOf args))
    (hsize : ReportsInTurn r (.optional .expr) size) :
    (r.type (.type loc ident false args size)).InTurn
      (Node.type loc ident false args size).literals := by
  rw [Rewriter.type, rewriteType_plain_eq]
  have hsize : (Rewriter.optional (r.expr "array size") size).InTurn size.literals :=
    Rewriter.optional_inTurn (hsize.imp_right fun h => h.2.1 _)
  exact hargs.bind fun _ => hsize.last _

/-- The walk over a template of types. -/
theorem rewriteType_template_inTurn (hr : r.parsers = .host) {loc : Option Loc} {ident : Text}
    {args : List Node} (hargs : ∀ a ∈ args, ReportsInTurn r .templateArg a) :
    (r.type (.type loc ident true args .missing)).InTurn
      (Node.type loc ident true args .missing).literals := by
  rw [Rewriter.type, Node.rewriteType, rewriteTypes_of_args fun a ha => (hargs a ha).1]
  simp only [if_true, pure_bind]
  refine (rewriteArgs_inTurn hr (.inr rfl) hargs _).bind fun _ => ?_
  exact (Rewriter.record_inTurn _ _ _).last _

theorem stmts_inTurn {body : List Node} (h : ∀ s ∈ body, ReportsInTurn r .statement s) :
    (r.stmts body).InTurn (Node.literalsOf body) := by
  induction body with
  | nil => exact .pure _
  | cons s rest ih =>
    obtain ⟨hfirst, hlater⟩ := List.forall_mem_cons.1 h
    rw [Rewriter.stmts]
    exact Walk.InTurn.bind hfirst fun _ => (ih hlater).last _

theorem block_inTurn {loc : Loc} {body : List Node} (h : ∀ s ∈ body, ReportsInTurn r .statement s) :
    (r.stmt (.block loc body)).InTurn (Node.block loc body).literals := by
  rw [Rewriter.stmt]
  exact (stmts_inTurn h).last _

/-- Rewriting a tree of the host grammar goes over its literals in turn. -/
theorem reportsInTurn (hr : r.parsers = .host) {sort : NodeSort} {n : Node}
    (h : HasSort r.Arranges sort n) : ReportsInTurn r sort n := by
  -- The walk goes into the parts of a node in the order of its literals, so each case puts the
  -- parts one behind the other.
  induction h with
  | name | literal => exact ⟨rfl, fun _ => .pure _, by rintro _ ⟨⟩⟩
  | @interpolation i h =>
    refine ⟨rfl, fun place => ?_, fun i' hi => ?_⟩
    · rw [Rewriter.expr, Node.rewrite]
      exact (Rewriter.reject_inTurn hr h.ordered place).last _
    · cases hi
      exact h
  | unary hop _ ih =>
    refine ⟨rfl, fun place => ?_, by rintro _ ⟨⟩⟩
    rw [Rewriter.expr, Node.rewrite]
    exact (ih.2.1 _).last _
  | member _ h ih =>
    refine ⟨rfl, fun place => ?_, by rintro _ ⟨⟩⟩
    rw [Rewriter.expr, Node.rewrite]
    exact (ih.2.1 _).last _
  | binary _ _ _ ih ih' =>
    refine ⟨rfl, fun place => ?_, by rintro _ ⟨⟩⟩
    rw [Rewriter.expr, Node.rewrite]
    exact (ih.2.1 _).bind fun _ => (ih'.2.1 _).last _
  | index _ _ ih ih' =>
    refine ⟨rfl, fun place => ?_, by rintro _ ⟨⟩⟩
    rw [Rewriter.expr, Node.rewrite]
    exact (ih.2.1 _).bind fun _ => (ih'.2.1 _).last _
  | call _ _ ih ihargs =>
    refine ⟨rfl, fun place => ?_, by rintro _ ⟨⟩⟩
    rw [Rewriter.expr, Node.rewrite]
    refine (ih.2.1 _).bind fun _ => ?_
    -- Recording the site reports nothing.
    exact (rewriteArgs_inTurn hr (.inl rfl) ihargs _).seq fun _ => Rewriter.record_inTurn _ _ _
  | instantiate _ _ ih ihargs =>
    refine ⟨rfl, fun place => ?_, by rintro _ ⟨⟩⟩
    rw [Rewriter.expr, Node.rewrite]
    refine (ih.2.1 _).bind fun _ => ?_
    exact (rewriteArgs_inTurn hr (.inr rfl) ihargs _).seq fun _ => Rewriter.record_inTurn _ _ _
  | mixin _ ihargs =>
    refine ⟨rfl, fun place => ?_, by rintro _ ⟨⟩⟩
    rw [Rewriter.expr, Node.rewrite]
    exact (rewriteArgs_inTurn hr (.inl rfl) ihargs _).seq fun _ => Rewriter.record_inTurn _ _ _
  | exprArg _ ih => exact ih
  | typeArg _ ih =>
    refine ⟨rfl, fun place => ?_, by rintro _ ⟨⟩⟩
    rw [Rewriter.expr, Node.rewrite]
    exact Walk.InTurn.last ih.2 _
  | builtin | named => exact ⟨rfl, rewriteType_plain_inTurn (.pure _) (.inl rfl)⟩
  | qualified _ _ ih | pointer _ ih =>
    exact ⟨rfl, rewriteType_plain_inTurn (rewriteTypes_inTurn ih) (.inl rfl)⟩
  | template _ _ ihargs => exact ⟨rfl, rewriteType_template_inTurn hr ihargs⟩
  | array _ _ ih ihsize => exact ⟨rfl, rewriteType_plain_inTurn (rewriteTypes_inTurn ih) ihsize⟩
  | anyType _ ih => exact ih
  | missing => exact .inl rfl
  | present _ ih => exact .inr ih
  | declare _ _ iht ihvalue =>
    rw [ReportsInTurn, Rewriter.stmt]
    refine (Rewriter.optional_inTurn (iht.imp_right fun h => h.2)).bind fun _ => ?_
    exact (ihvalue.2.1 _).last _
  | giveBack _ ih =>
    rw [ReportsInTurn, Rewriter.stmt]
    exact (Rewriter.optional_inTurn (ih.imp_right fun h => h.2.1 _)).last _
  | evaluate _ ih =>
    rw [ReportsInTurn, Rewriter.stmt]
    exact (ih.2.1 _).last _
  | block _ ih => exact block_inTurn ih
  | function _ _ _ ihparams ihresult ihbody =>
    rw [ReportsInTurn, Rewriter.stmt, Node.literals, List.append_assoc, Node.literalsOf_eq_flatMap]
    refine (Walk.InTurn.mapM ihparams).bind fun _ => ?_
    refine (Rewriter.optional_inTurn (ihresult.imp_right fun h => h.2)).bind fun _ => ?_
    exact (block_inTurn ihbody).last _
  | param _ _ iht ihdefault =>
    -- The default value is met first.
    rw [ReportsInTurn, Rewriter.param]
    refine (Rewriter.optional_inTurn (ihdefault.imp_right fun h => h.2.1 _)).bind fun _ => ?_
    exact Walk.InTurn.last iht.2 _

end Trees

/-! ## Programs -/

namespace Rewriter

variable {r : Rewriter} {source : Text} {p p' : Program}

theorem inserted_inTurn (hr : r.parsers = .host) {n : Node} (h : IsInserted r.Arranges n)
    (place : Text) : (r.expr place n).InTurn n.literals := by
  cases h with
  | name => exact .pure _
  | expr h => exact (reportsInTurn hr h).2.1 _
  | type loc h =>
    rw [expr, Node.rewrite]
    exact Walk.InTurn.last (reportsInTurn hr h).2 _

theorem mapM_argumentNode_inTurn {nested : Node → Walk Node} {loc : Loc} {args : List Argument}
    (h : AllValues (fun node => (nested node).InTurn node.literals) args) :
    (args.mapM (argumentNode nested loc)).InTurn (args.flatMap Argument.literals) := by
  refine .mapM fun arg harg => ?_
  cases arg with
  | text t => exact .pure _
  | value role source node => exact h role source node harg

/-- Literals in what comes out of a literal are shorter than it and stand inside it, in order. -/
theorem arranges (hr : r.parsers = .host) {i : Interpolation} (hi : i.IsExact source) :
    r.Arranges i := by
  induction hlength : i.body.chars.length using Nat.strongRecOn generalizing i with
  | ind n ih =>
    subst hlength
    obtain ⟨start, locate, hexact⟩ := hi
    refine ⟨hexact.ordered, fun context lowering hlower => ?_⟩
    rw [hr] at hlower
    have hspec := Interpolation.lower_spec hexact.ordered context r.file
    rw [hlower] at hspec
    have hvalues : AllValues (fun node => (r.nested i node).InTurn node.literals)
        lowering.args := by
      -- What a group inserts comes out of the body, and the literals in it are shorter than the
      -- body: the induction is on that length.
      intro role raw node hmem
      obtain ⟨ins, hins, rfl⟩ := Interpolation.resolves_of_lower hlower role raw node hmem
      rw [nested_eq_expr hr (hspec.2 role raw _ hmem)]
      refine inserted_inTurn hr ?_ _
      exact (hexact.inserted_of_resolves hins).1.mono fun j hj => ih _ hj.2 hj.1 rfl
    obtain ⟨hrise, hinside⟩ := hexact.literals_of_lower hlower
    exact (mapM_argumentNode_inTurn hvalues).imp fun _ _ _ h => h.reportedAs hrise hinside

theorem program_inTurn (hr : r.parsers = .host) (hp : parseProgram source = .ok p) :
    (r.program p).InTurn (Node.literalsOf p) := by
  have hwritten : ∀ s ∈ p, HasSort _ .statement s :=
    @Interpolation.written_of_parse .program source p hp
  -- A literal of a parsed program is exact, as its token was written down.
  refine stmts_inTurn fun s hs => reportsInTurn hr ((hwritten s hs).mono ?_)
  rintro i ⟨offset, forms, hi⟩
  exact arranges hr ⟨_, _, hi.exact⟩

/-- The reports of a rewriting come in the order in which they start in the source, across all
statements and through all literals in groups. The one exception is a report for a literal in the
default value of a parameter, and one for a literal in the type of the same parameter: the default
value is rewritten first. -/
theorem program_sourceOrder (hr : r.parsers = .host) (hp : parseProgram source = .ok p)
    (h : (r.program p).result = .ok p') :
    (r.program p).log.diagnostics.Pairwise fun d d' => d.span.StartsBefore d'.span ∨
      (∃ s ∈ p, ∃ i j, s.Defers i j ∧ i.Holds d ∧ j.Holds d') ∧ d'.span.StartsBefore d.span := by
  have hreported := program_inTurn hr hp p' h
  refine hreported.pairwise (parseProgram_literals hp) (fun _ _ => .inl) ?_
  have hbefore {i j : Interpolation} (hij : i.Precedes (Lexed.ofText source).tokens j) :
      i.Before j := by
    have hmoved := hij.before (keepsOrder_id source)
    rwa [Interpolation.mapLoc_id, Interpolation.mapLoc_id] at hmoved
  -- Two literals of a program stand in the order in which they are met, or the first is a default
  -- value and the other one is in the type in front of it.
  rintro i j (hij | ⟨⟨s, hs, hdefers⟩, hji⟩) d d' hd hd'
  · exact .inl ((hbefore hij).startsBefore hd hd')
  · exact .inr ⟨⟨s, hs, i, j, hdefers, hd, hd'⟩, (hbefore hji).startsBefore hd' hd⟩

/-! ## A parameter with two reports -/

/-- A parameter with an empty literal in its type and one as its default value,
`fn f(a: int[i""] = i"") {}`. -/
def emptyParam : Text :=
  ['f', 'n', ' ', 'f', '(', 'a', ':', ' ', 'i', 'n', 't', '[', 'i', '"', '"', ']', ' ', '=', ' ',
    'i', '"', '"', ')', ' ', '{', '}']

/-- The function with the parameter, and behind it an empty literal that is a value,
` let x = i"";`. -/
def emptyParamAndValue : Text :=
  emptyParam ++ ([' ', 'l', 'e', 't', ' ', 'x', ' ', '=', ' ', 'i', '"', '"', ';'] : Text)

namespace emptyParam

/-- The literal in the type. -/
def size : Interpolation := ⟨⟨1, 13⟩, .interspersed, ⟨[], ⟨1, 15⟩⟩⟩

/-- The literal that is the default value. -/
def defaultValue : Interpolation := ⟨⟨1, 20⟩, .interspersed, ⟨[], ⟨1, 22⟩⟩⟩

/-- The literal behind the function. -/
def value : Interpolation := ⟨⟨1, 36⟩, .interspersed, ⟨[], ⟨1, 38⟩⟩⟩

/-- The function with the parameter. -/
def function : Node :=
  .function ⟨1, 1⟩ ['f'] [.param ['a'] ((Node.namedType ⟨1, 9⟩ ['i', 'n', 't']).arrayType
    (.interpolation size)) (.interpolation defaultValue)] .missing (.block ⟨1, 25⟩ [])

/-- The statement behind the function. -/
def declaration : Node := .declare ⟨1, 28⟩ ['x'] .missing (.interpolation value)

/-- The tokens of the parameter. -/
def paramTokens : List Token :=
  [⟨.name, ['a'], 5, ⟨1, 6⟩⟩, ⟨.mark .colon, [':'], 6, ⟨1, 7⟩⟩,
    ⟨.keyword (.builtin .int), ['i', 'n', 't'], 8, ⟨1, 9⟩⟩, ⟨.mark .lbracket, ['['], 11, ⟨1, 12⟩⟩,
    ⟨.interpolatedLit, ['i', '"', '"'], 12, ⟨1, 13⟩⟩, ⟨.mark .rbracket, [']'], 15, ⟨1, 16⟩⟩,
    ⟨.mark .equal, ['='], 17, ⟨1, 18⟩⟩, ⟨.interpolatedLit, ['i', '"', '"'], 19, ⟨1, 20⟩⟩]

/-- The tokens of the function. -/
def tokens : List Token :=
  ⟨.keyword .fnWord, ['f', 'n'], 0, ⟨1, 1⟩⟩ :: ⟨.name, ['f'], 3, ⟨1, 4⟩⟩ ::
    ⟨.mark .lparen, ['('], 4, ⟨1, 5⟩⟩ :: (paramTokens ++ ⟨.mark .rparen, [')'], 22, ⟨1, 23⟩⟩ ::
      ([] ++ [⟨.mark .lbrace, ['{'], 24, ⟨1, 25⟩⟩, ⟨.mark .rbrace, ['}'], 25, ⟨1, 26⟩⟩]))

/-- The tokens of the statement behind the function. -/
def declarationTokens : List Token :=
  ⟨.keyword .letWord, ['l', 'e', 't'], 27, ⟨1, 28⟩⟩ :: ⟨.name, ['x'], 31, ⟨1, 32⟩⟩ ::
    ([] ++ ⟨.mark .equal, ['='], 33, ⟨1, 34⟩⟩ ::
      ([⟨.interpolatedLit, ['i', '"', '"'], 35, ⟨1, 36⟩⟩] ++
        [⟨.mark .semicolon, [';'], 38, ⟨1, 39⟩⟩]))

theorem phrase : Phrase .statement tokens function := by
  have hsize : Phrase .expr [⟨.interpolatedLit, ['i', '"', '"'], 12, ⟨1, 13⟩⟩]
      (.interpolation size) := Phrase.toExpr (.ofPrimary (.interpolation rfl rfl))
  have hdefault : Phrase .expr [⟨.interpolatedLit, ['i', '"', '"'], 19, ⟨1, 20⟩⟩]
      (.interpolation defaultValue) := Phrase.toExpr (.ofPrimary (.interpolation rfl rfl))
  have hparam : Phrase .param paramTokens _ :=
    .param rfl rfl (.array (.builtin rfl) rfl hsize rfl) (.default rfl hdefault)
  have hparams : ∀ p ∈ [(paramTokens, _)], Phrase .param p.1 p.2 :=
    List.forall_mem_singleton.2 hparam
  have hrow : Row [paramTokens] paramTokens := .items .nil
  have hbody : Phrase .block [⟨.mark .lbrace, ['{'], 24, ⟨1, 25⟩⟩,
      ⟨.mark .rbrace, ['}'], 25, ⟨1, 26⟩⟩] (.block ⟨1, 25⟩ []) :=
    @Phrase.block _ _ [] rfl (List.forall_mem_nil _) rfl
  exact .function rfl rfl rfl hparams hrow rfl .noAscription hbody

theorem declarationPhrase : Phrase .statement declarationTokens declaration :=
  .declare rfl rfl .noAscription rfl (Phrase.toExpr (.ofPrimary (.interpolation rfl rfl))) rfl

end emptyParam

open emptyParam

theorem parseProgram_emptyParam : parseProgram emptyParam = .ok [function] := by
  -- The tokens are found by evaluation and their phrase is given, so the automaton is not run.
  have htokens : (Lexed.ofText emptyParam).tokens = tokens ++ [] := by decide +kernel
  refine (@parse_eq_ok_iff_isTree .program emptyParam _).2 ⟨by decide +kernel, ?_⟩
  rw [htokens]
  exact ⟨[(tokens, function)], rfl, rfl, List.forall_mem_singleton.2 phrase⟩

theorem parseProgram_emptyParamAndValue :
    parseProgram emptyParamAndValue = .ok [function, declaration] := by
  have htokens :
      (Lexed.ofText emptyParamAndValue).tokens = tokens ++ (declarationTokens ++ []) := by
    decide +kernel
  refine (@parse_eq_ok_iff_isTree .program emptyParamAndValue _).2 ⟨by decide +kernel, ?_⟩
  rw [htokens]
  exact ⟨[(tokens, function), (declarationTokens, declaration)], rfl, rfl,
    List.forall_mem_cons.2 ⟨phrase, List.forall_mem_singleton.2 declarationPhrase⟩⟩

/-- The literals of the parameter are reported, and the one that is the default value is first. -/
theorem program_emptyParam :
    ({} : Rewriter).program [function] = .of ⟨[], [
      defaultValue.diagnostic none { cause := .misplaced .interspersed "default value" },
      size.diagnostic none { cause := .misplaced .interspersed "array size" }]⟩
        (.ok [function]) := Walk.ext_log rfl rfl

/-- The literal behind the function is reported last. -/
theorem program_emptyParamAndValue :
    ({} : Rewriter).program [function, declaration] = .of ⟨[], [
      defaultValue.diagnostic none { cause := .misplaced .interspersed "default value" },
      size.diagnostic none { cause := .misplaced .interspersed "array size" },
      value.diagnostic none { cause := .misplaced .interspersed "variable initializer" }]⟩
        (.ok [function, declaration]) := Walk.ext_log rfl rfl

theorem program_sourceOrder_param :
    let p := [function, declaration]
    let walk := ({} : Rewriter).program p
    ({} : Rewriter).parsers = .host ∧ parseProgram emptyParamAndValue = .ok p ∧
      walk.result = .ok p ∧ walk.log.diagnostics.length = 3 ∧
      walk.log.diagnostics.Pairwise fun d d' => d.span.StartsBefore d'.span ∨
        (∃ s ∈ p, ∃ i j, s.Defers i j ∧ i.Holds d ∧ j.Holds d') ∧
          d'.span.StartsBefore d.span := by
  intro p walk
  have hresult : walk.result = .ok p := congrArg Walk.result program_emptyParamAndValue
  have hreports := congrArg (fun walk => walk.log.diagnostics.length) program_emptyParamAndValue
  exact ⟨rfl, parseProgram_emptyParamAndValue, hresult, hreports,
    program_sourceOrder rfl parseProgram_emptyParamAndValue hresult⟩

/-- The second report starts before the first one. -/
theorem program_outOfOrder :
    let walk := ({} : Rewriter).program [function]
    parseProgram emptyParam = .ok [function] ∧ walk.result = .ok [function] ∧
      ¬ walk.log.diagnostics.Pairwise fun d d' => ¬ d'.span.StartsBefore d.span := by
  intro walk
  refine ⟨parseProgram_emptyParam, congrArg Walk.result program_emptyParam, fun hsorted => ?_⟩
  have hlog : walk.log.diagnostics = [
      defaultValue.diagnostic none { cause := .misplaced .interspersed "default value" },
      size.diagnostic none { cause := .misplaced .interspersed "array size" }] :=
    congrArg (fun walk => walk.log.diagnostics) program_emptyParam
  rw [hlog, List.pairwise_pair] at hsorted
  refine hsorted ⟨⟨1, 13⟩, ⟨1, 20⟩, rfl, rfl, rfl, rfl, ?_⟩
  exact .inr ⟨rfl, by decide⟩

end Rewriter

end Splice
