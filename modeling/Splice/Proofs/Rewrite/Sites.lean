import Splice.Proofs.Embedding.Arguments
import Splice.Proofs.Parse.Trees
import Splice.Proofs.Rewrite.Depth
import Splice.Proofs.Rewrite.LiteralFree
import Splice.Proofs.Rewrite.Visits

/-!
# Sites of a rewritten program

Rewriting visits the argument lists of a program and of what comes out of its literals, each of them
once and after those inside it, and records a site wherever a literal was lowered.

* `ArgsRebuilt`: an argument list comes out as one piece after another.
* `Rewriter.splice_visits`, `Node.rewriteArgs_visits`: a literal, and an argument list.
* `Rewriter.rebuilds`: the walk over a tree of the host grammar.
* `Rewriter.program_sites`: the walk over a program.
-/

namespace Splice

/-- A tree before and after rewriting, with the visits in between. -/
def Node.Rebuilt (n n' : Node) (visits : List Visit) : Prop :=
  Covers visits n.applications n'.applications []

/-- Trees before and after rewriting. -/
def RowRebuilt (ns ns' : List Node) (visits : List Visit) : Prop :=
  Covers visits (Node.applicationsOf ns) (Node.applicationsOf ns') []

/-- An argument list before and after rewriting, with what its literals became: every argument is a
piece. The visit of the list itself is still to come. -/
def ArgsRebuilt (r : Rewriter) (context : Context) (args : List Node)
    (out : List Node × List (List Argument)) (visits : List Visit) : Prop :=
  ∃ pieces : List Piece, (∀ p ∈ pieces, p.Holds r context) ∧ args = pieces.map Piece.before ∧
    out = (pieces.flatMap Piece.after, pieces.filterMap Piece.lowered?) ∧
    Covers visits (Node.applicationsOf args) (Node.applicationsOf out.1)
      (pieces.flatMap Piece.inserted)

section Pieces

variable {r : Rewriter} {context : Context}

theorem ArgsRebuilt.nil : ArgsRebuilt r context [] ([], []) [] := ⟨[], nofun, rfl, rfl, .nil⟩

theorem ArgsRebuilt.append {args args' : List Node} {out out' : List Node × List (List Argument)}
    {visits visits' : List Visit} (h : ArgsRebuilt r context args out visits)
    (h' : ArgsRebuilt r context args' out' visits') :
    ArgsRebuilt r context (args ++ args') (out.1 ++ out'.1, out.2 ++ out'.2)
      (visits ++ visits') := by
  obtain ⟨pieces, hpieces, rfl, rfl, hcovers⟩ := h
  obtain ⟨pieces', hpieces', rfl, rfl, hcovers'⟩ := h'
  refine ⟨pieces ++ pieces', List.forall_mem_append.2 ⟨hpieces, hpieces'⟩, ?_, ?_, ?_⟩
  · rw [List.map_append]
  · rw [List.flatMap_append, List.filterMap_append]
  · rw [Node.applicationsOf_append, Node.applicationsOf_append, List.flatMap_append]
    exact hcovers.append hcovers'

/-- One piece. -/
theorem ArgsRebuilt.piece {p : Piece} {visits : List Visit} (h : p.Holds r context)
    (hcovers : Covers visits p.before.applications (Node.applicationsOf p.after) p.inserted) :
    ArgsRebuilt r context [p.before] (p.after, p.lowered?.toList) visits := by
  refine ⟨[p], List.forall_mem_singleton.2 h, rfl, ?_, ?_⟩
  · cases p <;> simp [Piece.after, Piece.lowered?]
  · simpa [Node.applicationsOf] using hcovers

end Pieces

namespace Rewriter

variable {r : Rewriter}

theorem reject_visits (i : Interpolation) (place : Text) :
    (r.reject i place).Visits r fun _ visits => visits = [] := by
  unfold reject
  cases hlower : i.lower (.other place) r.parsers r.file with
  | error failure => trivial
  | ok result => cases result <;> exact ⟨[], nofun, rfl, rfl⟩

/-- The nodes that come out of a literal are rewritten as they would be in a program. -/
def Settled (r : Rewriter) (i : Interpolation) : Prop :=
  i.Ordered ∧ ∀ node, i.Inserts node →
    r.nested i node = r.expr "interpolation group" node ∧
      (r.expr "interpolation group" node).Visits r node.Rebuilt

/-- The arguments of a lowered literal become the nodes that take its place. -/
theorem mapM_argumentNode_visits {i : Interpolation} (hi : r.Settled i) {args : List Argument}
    (hargs : AllValues i.Inserts args) :
    (args.mapM (argumentNode (r.nested i) i.loc)).Visits r fun nodes visits =>
      List.Forall₂ (Argument.Becomes r i.loc) args nodes ∧
        Covers visits [] (Node.applicationsOf nodes)
          (Node.applicationsOf (args.flatMap Argument.nodes)) := by
  induction args with
  | nil => exact .pure ⟨.nil, .nil⟩
  | cons arg args ih =>
    have ih := ih fun role source node hmem => hargs role source node (List.mem_cons_of_mem _ hmem)
    have hfirst : (argumentNode (r.nested i) i.loc arg).Visits r fun n visits =>
        arg.Becomes r i.loc n ∧ Covers visits [] n.applications
          (Node.applicationsOf arg.nodes) := by
      cases arg with
      | text t => exact .pure ⟨.text t, .nil⟩
      | value role source node =>
        obtain ⟨heq, hvisits⟩ := hi.2 node (hargs role source node List.mem_cons_self)
        rw [argumentNode, heq]
        refine hvisits.imp fun n visits hn hcovers => ⟨.value hn, ?_⟩
        rw [Argument.nodes, Node.applicationsOf_singleton]
        exact hcovers.insert
    rw [List.mapM_cons]
    refine hfirst.bind fun n visits _ hn => ?_
    refine ih.last fun nodes later _ hnodes => ⟨.cons hn.1 hnodes.1, ?_⟩
    rw [Node.applicationsOf, List.flatMap_cons, Node.applicationsOf_append]
    exact hn.2.append hnodes.2

/-- A literal in an argument list is lowered or kept. -/
theorem splice_visits (hr : r.parsers = .host) {i : Interpolation} (hi : r.Settled i)
    (context : Context) :
    (r.splice r.nested context i).Visits r (ArgsRebuilt r context [.interpolation i]) := by
  have hspec := Interpolation.lower_spec hi.1 context r.file
  rw [← hr] at hspec
  unfold splice
  cases hlower : i.lower context r.parsers r.file with
  | error failure => trivial
  | ok result =>
    rw [hlower] at hspec
    cases result with
    | error d =>
      exact ⟨[], nofun, rfl, .piece (.kept hlower) .nil⟩
    | ok lowering =>
      refine (mapM_argumentNode_visits hi hspec.2).last fun nodes visits _ ⟨hnodes, hcovers⟩ => ?_
      exact .piece (.lowered hlower hnodes) hcovers

/-- The visit of an argument list, after those inside it. -/
theorem record_visits {v : Visit} (hv : v.Holds r) {loc : Loc} {node : Node}
    {lowered : List (List Argument)} (hsite : v.site = ⟨loc, node, lowered⟩) :
    (record loc node lowered).Visits r fun n visits => n = node ∧ visits = [v] := by
  have hlowered : v.lowered = lowered := by rw [← v.lowered_site, hsite]
  cases lowered with
  | nil =>
    rw [record_nil]
    refine ⟨[v], List.forall_mem_singleton.2 hv, ?_, rfl, rfl⟩
    simp [sitesOf, hlowered, Walk.log_pure]
  | cons args lowered =>
    rw [record_cons]
    refine ⟨[v], List.forall_mem_singleton.2 hv, ?_, rfl, rfl⟩
    simp [sitesOf, hlowered, hsite]

end Rewriter

/-! ## Trees -/

/-- What rewriting a tree of some sort comes to. -/
def Rebuilds (r : Rewriter) : NodeSort → Node → Prop
  | .expr, n | .templateArg, n => n.isType = false ∧
    (∀ place, (r.expr place n).Visits r n.Rebuilt) ∧ ∀ i, n = .interpolation i → r.Settled i
  | .type _, t => t.isType = true ∧ (r.type t).Visits r t.Rebuilt
  | .statement, s => (r.stmt s).Visits r s.Rebuilt
  | .param, p => (r.param p).Visits r p.Rebuilt
  | .optional sort, n => n = .missing ∨ Rebuilds r sort n

section Trees

variable {r : Rewriter}

theorem rewriteArgs_visits (hr : r.parsers = .host) {sort : NodeSort}
    (hsort : sort = .expr ∨ sort = .templateArg) {args : List Node}
    (h : ∀ a ∈ args, Rebuilds r sort a) (context : Context) :
    (Node.rewriteArgs r r.nested context args).Visits r (ArgsRebuilt r context args) := by
  induction args with
  | nil => exact .pure .nil
  | cons a rest ih =>
    obtain ⟨hfirst, hlater⟩ := List.forall_mem_cons.1 h
    have ih := ih hlater
    obtain ⟨-, hfirst, hliteral⟩ : Rebuilds r .expr a := by
      rcases hsort with rfl | rfl <;> exact hfirst
    by_cases ha : ∃ i, a = .interpolation i
    · obtain ⟨i, rfl⟩ := ha
      rw [Node.rewriteArgs]
      have hsplice := Rewriter.splice_visits hr (hliteral i rfl) context
      refine hsplice.bind fun ⟨nodes, lowered⟩ _ _ hi => ?_
      exact ih.last fun ⟨later, loweredLater⟩ _ _ hlater => hi.append hlater
    · have ha (i : Interpolation) : a ≠ .interpolation i := fun hi => ha ⟨i, hi⟩
      rw [Node.rewriteArgs_cons ha]
      refine (hfirst context.describe).bind fun n visits hn hcovers => ?_
      refine ih.last fun ⟨later, lowered⟩ _ _ hlater => ?_
      refine (ArgsRebuilt.piece (p := .other a n) (.other ha hn) ?_).append hlater
      rw [Piece.after, Node.applicationsOf_singleton]
      exact hcovers

theorem Rewriter.optional_visits {f : Node → Walk Node} {n : Node}
    (h : n = .missing ∨ (f n).Visits r n.Rebuilt) : (optional f n).Visits r n.Rebuilt := by
  unfold optional
  by_cases hmissing : n.isMissing = true
  · obtain rfl := Node.isMissing_iff.1 hmissing
    exact .pure .nil
  · rw [if_neg hmissing]
    rcases h with rfl | h
    · exact absurd rfl hmissing
    · exact h

theorem mapM_visits {f : Node → Walk Node} {ns : List Node}
    (h : ∀ n ∈ ns, (f n).Visits r n.Rebuilt) : (ns.mapM f).Visits r (RowRebuilt ns) := by
  induction ns with
  | nil => exact .pure .nil
  | cons n ns ih =>
    obtain ⟨hfirst, hlater⟩ := List.forall_mem_cons.1 h
    rw [List.mapM_cons]
    exact hfirst.bind fun _ _ _ hn => (ih hlater).last fun _ _ _ hns => hn.append hns

theorem rewriteTypes_visits {reserved : Bool} {t : Node} (h : Rebuilds r (.type reserved) t) :
    (Node.rewriteTypes r r.nested [t]).Visits r (RowRebuilt [t]) := by
  obtain ⟨htype, h⟩ := h
  rw [Node.rewriteTypes, if_pos htype]
  refine Walk.Visits.last h fun t' visits _ hcovers => ?_
  rw [RowRebuilt, Node.applicationsOf_singleton, Node.applicationsOf_singleton]
  exact hcovers

/-- The walk over a type that is no template. -/
theorem rewriteType_plain_visits {loc : Option Loc} {ident : Text} {args : List Node} {size : Node}
    (hargs : (Node.rewriteTypes r r.nested args).Visits r (RowRebuilt args))
    (hsize : Rebuilds r (.optional .expr) size) :
    (r.type (.type loc ident false args size)).Visits r
      (Node.type loc ident false args size).Rebuilt := by
  rw [Rewriter.type, rewriteType_plain_eq]
  refine hargs.bind fun inner visits _ hinner => ?_
  have hsize : (Rewriter.optional (r.expr "array size") size).Visits r size.Rebuilt :=
    Rewriter.optional_visits (hsize.imp_right fun h => h.2.1 _)
  exact hsize.last fun size' later _ hlater => hinner.append hlater

/-- The walk over a template of types. -/
theorem rewriteType_template_visits (hr : r.parsers = .host) {loc : Option Loc} {ident : Text}
    {args : List Node} (hargs : ∀ a ∈ args, Rebuilds r .templateArg a) :
    (r.type (.type loc ident true args .missing)).Visits r
      (Node.type loc ident true args .missing).Rebuilt := by
  -- No argument of a template is a type, so the walk over types passes them all by.
  rw [Rewriter.type, Node.rewriteType, rewriteTypes_of_args fun a ha => (hargs a ha).1]
  simp only [if_true, pure_bind]
  refine (rewriteArgs_visits hr (.inr rfl) hargs _).bind fun ⟨out, lowered⟩ visits _ h => ?_
  obtain ⟨pieces, hpieces, rfl, hout, hcovers⟩ := h
  cases hout
  refine (Rewriter.record_visits (.type hpieces) rfl).bind fun _ later _ ⟨_, hlater⟩ => ?_
  subst hlater
  exact .pure hcovers.visit

theorem stmts_visits {body : List Node} (h : ∀ s ∈ body, Rebuilds r .statement s) :
    (r.stmts body).Visits r (RowRebuilt body) := by
  induction body with
  | nil => exact .pure .nil
  | cons s rest ih =>
    obtain ⟨hfirst, hlater⟩ := List.forall_mem_cons.1 h
    rw [Rewriter.stmts]
    exact Walk.Visits.bind hfirst fun _ _ _ hs =>
      (ih hlater).last fun _ _ _ hrest => hs.append hrest

theorem block_visits {loc : Loc} {body : List Node} (h : ∀ s ∈ body, Rebuilds r .statement s) :
    (r.stmt (.block loc body)).Visits r (Node.block loc body).Rebuilt := by
  rw [Rewriter.stmt]
  exact (stmts_visits h).last fun _ _ _ hcovers => hcovers

/-- Rewriting a tree of the host grammar visits its argument lists. -/
theorem rebuilds (hr : r.parsers = .host) {sort : NodeSort} {n : Node}
    (h : HasSort r.Settled sort n) : Rebuilds r sort n := by
  -- The visits of a node are those of its parts, in the order of the walk; only an argument list
  -- adds one of its own, behind those of its arguments.
  induction h with
  | name | literal => exact ⟨rfl, fun _ => .pure .nil, by rintro _ ⟨⟩⟩
  -- A literal that is no argument is rejected, which visits nothing.
  | @interpolation i h =>
    refine ⟨rfl, fun place => ?_, fun i' hi => ?_⟩
    · rw [Rewriter.expr, Node.rewrite]
      refine (Rewriter.reject_visits i place).last fun _ visits _ hvisits => ?_
      subst hvisits
      exact .nil
    · cases hi
      exact h
  | unary hop _ ih =>
    refine ⟨rfl, fun place => ?_, by rintro _ ⟨⟩⟩
    rw [Rewriter.expr, Node.rewrite]
    exact (ih.2.1 _).last fun _ _ _ hcovers => hcovers
  | member _ h ih =>
    refine ⟨rfl, fun place => ?_, by rintro _ ⟨⟩⟩
    rw [Rewriter.expr, Node.rewrite]
    exact (ih.2.1 _).last fun _ _ _ hcovers => hcovers
  | binary _ _ _ ih ih' =>
    refine ⟨rfl, fun place => ?_, by rintro _ ⟨⟩⟩
    rw [Rewriter.expr, Node.rewrite]
    refine (ih.2.1 _).bind fun _ _ _ hleft => ?_
    exact (ih'.2.1 _).last fun _ _ _ hright => hleft.append hright
  | index _ _ ih ih' =>
    refine ⟨rfl, fun place => ?_, by rintro _ ⟨⟩⟩
    rw [Rewriter.expr, Node.rewrite]
    exact (ih.2.1 _).bind fun _ _ _ hvalue =>
      (ih'.2.1 _).last fun _ _ _ hoffset => hvalue.append hoffset
  | call _ _ ih ihargs =>
    refine ⟨rfl, fun place => ?_, by rintro _ ⟨⟩⟩
    rw [Rewriter.expr, Node.rewrite]
    refine (ih.2.1 _).bind fun callee' front hcallee hfront => ?_
    refine (rewriteArgs_visits hr (.inl rfl) ihargs _).bind fun out visits _ h => ?_
    obtain ⟨pieces, hpieces, rfl, rfl, hcovers⟩ := h
    -- The list is visited last, with the callee as its walk left it.
    refine (Rewriter.record_visits (.call hcallee hpieces) rfl).imp ?_
    rintro _ _ - ⟨rfl, rfl⟩
    exact hfront.append hcovers.visit
  | instantiate _ _ ih ihargs =>
    refine ⟨rfl, fun place => ?_, by rintro _ ⟨⟩⟩
    rw [Rewriter.expr, Node.rewrite]
    refine (ih.2.1 _).bind fun template' front htemplate hfront => ?_
    refine (rewriteArgs_visits hr (.inr rfl) ihargs _).bind fun out visits _ h => ?_
    obtain ⟨pieces, hpieces, rfl, rfl, hcovers⟩ := h
    refine (Rewriter.record_visits (.instantiate htemplate hpieces) rfl).imp ?_
    rintro _ _ - ⟨rfl, rfl⟩
    exact hfront.append hcovers.visit
  | mixin _ ihargs =>
    refine ⟨rfl, fun place => ?_, by rintro _ ⟨⟩⟩
    rw [Rewriter.expr, Node.rewrite]
    refine (rewriteArgs_visits hr (.inl rfl) ihargs _).bind fun out visits _ h => ?_
    obtain ⟨pieces, hpieces, rfl, rfl, hcovers⟩ := h
    refine (Rewriter.record_visits (.mixin hpieces) rfl).imp ?_
    rintro _ _ - ⟨rfl, rfl⟩
    exact hcovers.visit
  | exprArg _ ih => exact ih
  | typeArg _ ih =>
    refine ⟨rfl, fun place => ?_, by rintro _ ⟨⟩⟩
    rw [Rewriter.expr, Node.rewrite]
    exact ih.2.last fun _ _ _ hcovers => hcovers
  | builtin | named => exact ⟨rfl, rewriteType_plain_visits (.pure .nil) (.inl rfl)⟩
  | qualified _ _ ih | pointer _ ih =>
    exact ⟨rfl, rewriteType_plain_visits (rewriteTypes_visits ih) (.inl rfl)⟩
  | template _ _ ihargs => exact ⟨rfl, rewriteType_template_visits hr ihargs⟩
  | array _ _ ih ihsize => exact ⟨rfl, rewriteType_plain_visits (rewriteTypes_visits ih) ihsize⟩
  | anyType _ ih => exact ih
  | missing => exact .inl rfl
  | present _ ih => exact .inr ih
  | declare _ _ iht ihvalue =>
    rw [Rebuilds, Rewriter.stmt]
    refine (Rewriter.optional_visits (iht.imp_right fun h => h.2)).bind fun _ _ _ ht => ?_
    exact (ihvalue.2.1 _).last fun _ _ _ hvalue => ht.append hvalue
  | giveBack _ ih =>
    rw [Rebuilds, Rewriter.stmt]
    exact (Rewriter.optional_visits (ih.imp_right fun h => h.2.1 _)).last fun _ _ _ h => h
  | evaluate _ ih =>
    rw [Rebuilds, Rewriter.stmt]
    exact (ih.2.1 _).last fun _ _ _ h => h
  | block _ ih => exact block_visits ih
  | function _ _ _ ihparams ihresult ihbody =>
    rw [Rebuilds, Rewriter.stmt]
    refine (mapM_visits ihparams).bind fun _ _ _ hparams => ?_
    refine (Rewriter.optional_visits (ihresult.imp_right fun h => h.2)).bind fun _ _ _ hresult => ?_
    exact (block_visits ihbody).last fun _ _ _ hbody => hparams.append (hresult.append hbody)
  | param _ _ iht ihdefault =>
    rw [Rebuilds, Rewriter.param]
    refine (Rewriter.optional_visits (ihdefault.imp_right fun h => h.2.1 _)).bind
      fun _ _ _ hdefault => ?_
    exact iht.2.last fun _ _ _ ht => hdefault.append ht

end Trees

namespace Rewriter

variable {r : Rewriter}

/-- Literals in what comes out of a literal are shorter than it, so rewriting gets through. -/
theorem settled (hr : r.parsers = .host) {i : Interpolation} (hi : i.Ordered) : r.Settled i := by
  induction hlength : i.body.chars.length using Nat.strongRecOn generalizing i with
  | ind n ih =>
    subst hlength
    refine ⟨hi, fun node hnode => ⟨nested_eq_expr hr hnode, ?_⟩⟩
    -- The body of a literal within another one is shorter, so the hypothesis is there for it.
    have hwithin (j : Interpolation) (hj : i.Within j) : r.Settled j := ih _ hj.2 hj.1 rfl
    cases hnode.2 with
    | name => exact .pure .nil
    | expr h => exact (rebuilds hr (h.mono hwithin)).2.1 _
    | type loc h =>
      rw [expr, Node.rewrite]
      exact (rebuilds hr (h.mono hwithin)).2.last fun _ _ _ hcovers => hcovers

theorem program_visits (hr : r.parsers = .host) {source : Text} {p : Program}
    (hp : parseProgram source = .ok p) : (r.program p).Visits r (RowRebuilt p) := by
  refine stmts_visits fun s hs => rebuilds hr ?_
  exact (hasSort_of_parseProgram hp s hs).mono fun i hi =>
    settled hr (Interpolation.ordered_of_laidOut_source hi.1)

/-- The node of a site is the one that was visited, or it stands in the place of an argument. -/
theorem node_of_mem_sitesOf {visits : List Visit} {site : Site} (h : site ∈ sitesOf visits) :
    ∃ part ∈ visits.map Visit.after, site.node = part ∨ ∃ loc, site.node = .typeArg loc part := by
  obtain ⟨v, hv, rfl⟩ := List.mem_map.1 h
  refine ⟨v.after, List.mem_map_of_mem (List.mem_of_mem_filter hv), ?_⟩
  unfold Visit.site
  split
  · exact .inr ⟨_, rfl⟩
  · exact .inl rfl

/-- Rewriting a parsed program visits every argument list of it and of the nodes that come out of
groups, once each. In each of them every literal is replaced by its lowered arguments or kept where
it is, and every other argument is replaced by its own rewrite. The argument lists of the result are
what the visits come to, in their order, in which a list comes after those inside it. A site is
recorded for each visit in which a literal was lowered, with what its literals became, and no other;
so the node of a site is one of the result. -/
theorem program_sites (hr : r.parsers = .host) {source : Text} {p p' : Program}
    (hp : parseProgram source = .ok p) (h : (r.program p).result = .ok p') :
    ∃ visits : List Visit, (∀ v ∈ visits, v.Holds r) ∧
      (r.program p).log.sites = sitesOf visits ∧
      visits.map Visit.after = Node.applicationsOf p' ∧
      (visits.map Visit.before).Perm (Node.applicationsOf p ++ visits.flatMap Visit.inserted) ∧
      ∀ site ∈ (r.program p).log.sites, ∃ s ∈ p', ∃ part : Node, part.IsPartOf s ∧
        (site.node = part ∨ ∃ loc, site.node = .typeArg loc part) := by
  have hvisits := program_visits hr hp
  rw [Walk.Visits, h] at hvisits
  obtain ⟨visits, hvisits, hsites, hafter, hbefore⟩ := hvisits
  rw [List.append_nil] at hbefore
  refine ⟨visits, hvisits, hsites, hafter, hbefore, fun site hsite => ?_⟩
  rw [hsites] at hsite
  obtain ⟨part, hpart, hnode⟩ := node_of_mem_sitesOf hsite
  rw [hafter] at hpart
  obtain ⟨s, hs, hpart⟩ := Node.exists_isPartOf_of_mem p' hpart
  exact ⟨s, hs, part, hpart, hnode⟩

theorem program_sites_call :
    let source := callSource .interspersed (embed ['a'] [(.name ['x'], [])])
    ∃ p p', ({} : Rewriter).parsers = .host ∧ parseProgram source = .ok p ∧
      (({} : Rewriter).program p).result = .ok p' ∧
      ∃ visits : List Visit, (∀ v ∈ visits, v.Holds {}) ∧
        (({} : Rewriter).program p).log.sites = sitesOf visits ∧
        visits.map Visit.after = Node.applicationsOf p' ∧
        (visits.map Visit.before).Perm (Node.applicationsOf p ++ visits.flatMap Visit.inserted) ∧
        ∀ site ∈ (({} : Rewriter).program p).log.sites, ∃ s ∈ p', ∃ part : Node, part.IsPartOf s ∧
          (site.node = part ∨ ∃ loc, site.node = .typeArg loc part) := by
  have hname : (Embedded.name ['x']).StandsBefore [] := ⟨⟨'x', [], rfl, by decide, nofun⟩, nofun⟩
  have hrest : ∀ p ∈ [(Embedded.name ['x'], ([] : Text))], p.1.StandsBefore p.2 :=
    List.forall_mem_singleton.2 hname
  obtain ⟨p, _, _, _, _, _, hparse, hrewrite, -⟩ :=
    program_callSource (r := {}) rfl .interspersed ['a'] hrest
  have hresult := congrArg Walk.result hrewrite
  exact ⟨p, _, rfl, hparse, hresult, program_sites (r := {}) rfl hparse hresult⟩

end Rewriter

end Splice
