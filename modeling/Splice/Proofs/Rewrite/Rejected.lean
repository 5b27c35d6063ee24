import Splice.Proofs.Embedding.Arguments
import Splice.Proofs.Parse.Trees
import Splice.Proofs.Phrase.Parsed
import Splice.Proofs.Rewrite.Depth
import Splice.Proofs.Rewrite.LiteralFree
import Splice.Proofs.Rewrite.Unsited

/-!
# Rejected literals stay rejected

A literal that was rejected stays where it is, and a second rewriting of the result rejects it again
in the same words. The one exception is a literal that is the whole text of a group: it is rejected
there, but it takes the place of the group in an argument list, where it can stand.

* `Rewriter.splice_redone`, `rewriteArgs_redone`: a literal, and an argument list.
* `repeats`: a tree of the host grammar.
* `Rewriter.program_again`: a program.
-/

namespace Splice

variable {r : Rewriter} {context : Context}

/-! ## Argument lists -/

/-- A second walk over an argument list meets no type by itself, and lowers nothing but literals
that were whole groups. -/
def ArgsRedone (r : Rewriter) (context : Context) (args : List Node) (ds : List Diagnostic) :
    Prop :=
  (∀ a ∈ args, a.isType = false) ∧
    (Node.rewriteArgs r r.nested context args).Redoes ds (args, [])

theorem Node.rewriteArgs_append (nested : Interpolation → Node → Walk Node)
    (args later : List Node) :
    Node.rewriteArgs r nested context (args ++ later) = (do
      let out ← Node.rewriteArgs r nested context args
      let last ← Node.rewriteArgs r nested context later
      return (out.1 ++ last.1, out.2 ++ last.2)) := by
  induction args with
  | nil => simp [Node.rewriteArgs]
  | cons a args ih =>
    by_cases ha : ∃ i, a = .interpolation i
    · obtain ⟨i, rfl⟩ := ha
      simp [Node.rewriteArgs, ih]
    · have ha (i : Interpolation) : a ≠ .interpolation i := fun hi => ha ⟨i, hi⟩
      simp [Node.rewriteArgs_cons ha, ih]

theorem ArgsRedone.nil : ArgsRedone r context [] [] := ⟨nofun, .pure _⟩

theorem ArgsRedone.append {args later : List Node} {ds ds' : List Diagnostic}
    (h : ArgsRedone r context args ds) (h' : ArgsRedone r context later ds') :
    ArgsRedone r context (args ++ later) (ds ++ ds') := by
  refine ⟨List.forall_mem_append.2 ⟨h.1, h'.1⟩, ?_⟩
  rw [Node.rewriteArgs_append]
  refine h.2.bind (g := fun out => (out.1 ++ later, out.2)) fun out => ?_
  simpa using h'.2.last fun last => (out.1 ++ last.1, out.2 ++ last.2)

/-- What stands in an argument list without being a literal is rewritten alike everywhere. -/
theorem Node.rewrite_place {n : Node} (hn : n.kind ≠ .interpolation)
    (nested : Interpolation → Node → Walk Node) (place place' : Text) :
    n.rewrite r nested place = n.rewrite r nested place' := by
  cases n with
  | interpolation => exact absurd rfl hn
  | _ => simp only [rewrite]

theorem ArgsRedone.single {n : Node} {place : Text} {ds : List Diagnostic}
    (hn : n.kind ≠ .interpolation) (htype : n.isType = false)
    (h : (r.expr place n).Redoes ds n) : ArgsRedone r context [n] ds := by
  have hliteral (i : Interpolation) : n ≠ .interpolation i := by
    rintro rfl
    exact hn rfl
  refine ⟨List.forall_mem_singleton.2 htype, ?_⟩
  rw [Node.rewriteArgs_cons hliteral, Node.rewrite_place hn _ _ place]
  exact h.last fun n => ([n], [])

/-- A literal that is rejected here is rejected here again. -/
theorem ArgsRedone.kept {i : Interpolation} {d : Diagnostic}
    (h : i.lower context r.parsers r.file = .ok (.error d)) :
    ArgsRedone r context [.interpolation i] [d] := by
  refine ⟨List.forall_mem_singleton.2 rfl, .of_eq ?_⟩
  rw [Node.rewriteArgs, Rewriter.splice, h]
  exact Walk.ext_log rfl rfl

/-! ## Literals -/

/-- What rewriting an expression or an argument comes to is of the same kind, and a second walk over
it rejects the same literals. -/
def ExprRepeats (r : Rewriter) (n : Node) : Prop :=
  n.isType = false ∧ ∀ place, (r.expr place n).Ends fun n' ds =>
    n'.kind = n.kind ∧ (r.expr place n').Redoes ds n'

/-- An expression that is no literal by itself is rewritten again in any argument list. -/
theorem ExprRepeats.single {n : Node} (h : ExprRepeats r n) (hn : ∀ i, n ≠ .interpolation i)
    (place : Text) :
    (r.expr place n).Ends fun n' ds => ArgsRedone r context [n'] ds := by
  have hkind : n.kind ≠ .interpolation := by
    cases n with
    | interpolation i => exact absurd rfl (hn i)
    | _ => nofun
  refine (h.2 place).imp fun n' ds _ ⟨hn', hredoes⟩ => .single (hn' ▸ hkind) ?_ hredoes
  rw [Node.isType, hn']
  exact h.1

namespace Rewriter

/-- The nodes that come out of a literal are rewritten as they would be in a program, and a second
walk over them rejects the same literals. -/
def Steady (r : Rewriter) (i : Interpolation) : Prop :=
  i.Ordered ∧ ∀ node, i.Inserts node →
    r.nested i node = r.expr "interpolation group" node ∧ ExprRepeats r node

theorem reject_ends (i : Interpolation) (place : Text) :
    (r.reject i place).Ends fun _ ds => ∃ d, ds = [d] ∧
      r.reject i place = .of { diagnostics := ds } (.ok ()) ∧
      i.lower (.other place) r.parsers r.file = .ok (.error d) := by
  intro _ h
  unfold reject at h ⊢
  cases hlower : i.lower (.other place) r.parsers r.file with
  | error failure => rw [hlower] at h; cases h
  | ok result =>
    cases result with
    | ok lowering => exact absurd hlower (Interpolation.lower_ne_ok rfl lowering)
    | error d => exact ⟨d, rfl, Walk.ext_log rfl rfl, rfl⟩

/-- A literal is rejected again where it was rejected before. -/
theorem exprRepeats_interpolation (i : Interpolation) : ExprRepeats r (.interpolation i) := by
  refine ⟨rfl, fun place => ?_⟩
  rw [expr, Node.rewrite]
  refine (reject_ends i place).last fun _ ds _ hrejected => ⟨rfl, ?_⟩
  obtain ⟨-, -, hreject, -⟩ := hrejected
  rw [expr, Node.rewrite]
  exact (Walk.Redoes.of_eq hreject).last fun _ => Node.interpolation i

/-- What comes out of a group is rewritten again in the argument list that it gets into. A literal
that is the whole group may be lowered there. -/
theorem exprGroup_redone {node : Node} (h : ExprRepeats r node) :
    (r.expr "interpolation group" node).Ends fun n ds => ArgsRedone r context [n] ds := by
  by_cases hliteral : ∃ i, node = .interpolation i
  · obtain ⟨i, rfl⟩ := hliteral
    rw [expr, Node.rewrite]
    refine (reject_ends i _).last fun _ ds _ hrejected => ?_
    obtain ⟨d, rfl, -, hlower⟩ := hrejected
    obtain ⟨-, rfl⟩ | ⟨-, hlower⟩ := Interpolation.lower_rejected hlower
    · exact ⟨List.forall_mem_singleton.2 rfl,
        .of_isWholeGroup ((i.isWholeGroup_misplaced r.file _).2 rfl) _ _⟩
    · exact .kept (hlower context)
  · exact h.single (fun i hi => hliteral ⟨i, hi⟩) _

/-- The arguments of a lowered literal are rewritten again in its argument list. -/
theorem mapM_argumentNode_redone {i : Interpolation} (hi : r.Steady i) {args : List Argument}
    (hargs : AllValues i.Inserts args) :
    (args.mapM (argumentNode (r.nested i) i.loc)).Ends fun nodes ds =>
      ArgsRedone r context nodes ds := by
  induction args with
  | nil => exact .pure .nil
  | cons arg args ih =>
    have ih := ih fun role source node hmem => hargs role source node (List.mem_cons_of_mem _ hmem)
    have hfirst : (argumentNode (r.nested i) i.loc arg).Ends fun n ds =>
        ArgsRedone r context [n] ds := by
      cases arg with
      | text t =>
        have htext : (r.expr "" (.literal i.loc (.string t))).Redoes [] _ := .pure _
        exact .pure (.single nofun rfl htext)
      | value role source node =>
        obtain ⟨heq, hrepeats⟩ := hi.2 node (hargs role source node List.mem_cons_self)
        rw [argumentNode, heq]
        exact exprGroup_redone hrepeats
    rw [List.mapM_cons]
    exact hfirst.bind fun n ds _ hn => ih.last fun nodes later _ hnodes => hn.append hnodes

/-- A literal in an argument list is rejected again there, or its arguments are rewritten again. -/
theorem splice_redone (hr : r.parsers = .host) {i : Interpolation} (hi : r.Steady i)
    (context : Context) :
    (r.splice r.nested context i).Ends fun out ds => ArgsRedone r context out.1 ds := by
  have hspec := Interpolation.lower_spec hi.1 context r.file
  rw [← hr] at hspec
  unfold splice
  cases hlower : i.lower context r.parsers r.file with
  | error failure => nofun
  | ok result =>
    rw [hlower] at hspec
    cases result with
    | error d =>
      rintro _ ⟨⟩
      exact .kept hlower
    | ok lowering =>
      exact (mapM_argumentNode_redone hi hspec.2).last fun nodes ds _ hnodes => hnodes

theorem record_ends (loc : Loc) (node : Node) (lowered : List (List Argument)) :
    (record loc node lowered).Ends fun n ds => n = node ∧ ds = [] := by
  intro n hn
  unfold record at hn ⊢
  split at hn
  · next hempty => cases hn; rw [if_pos hempty]; exact ⟨rfl, rfl⟩
  · next hempty => cases hn; rw [if_neg hempty]; exact ⟨rfl, rfl⟩

end Rewriter

/-! ## Trees -/

/-- What rewriting a tree of some sort comes to is rewritten again in the same way, except for
literals that were whole groups. -/
def Repeats (r : Rewriter) : NodeSort → Node → Prop
  | .expr, n | .templateArg, n => ExprRepeats r n ∧ ∀ i, n = .interpolation i → r.Steady i
  | .type _, t => t.isType = true ∧
    (r.type t).Ends fun t' ds => t'.isType = true ∧ (r.type t').Redoes ds t'
  | .statement, s => (r.stmt s).Ends fun s' ds => (r.stmt s').Redoes ds s'
  | .param, p => (r.param p).Ends fun p' ds => (r.param p').Redoes ds p'
  | .optional sort, n => n = .missing ∨ Repeats r sort n

section Trees

theorem rewriteArgs_redone (hr : r.parsers = .host) {sort : NodeSort}
    (hsort : sort = .expr ∨ sort = .templateArg) {args : List Node}
    (h : ∀ a ∈ args, Repeats r sort a) (context : Context) :
    (Node.rewriteArgs r r.nested context args).Ends fun out ds =>
      ArgsRedone r context out.1 ds := by
  induction args with
  | nil => exact .pure .nil
  | cons a rest ih =>
    obtain ⟨hfirst, hlater⟩ := List.forall_mem_cons.1 h
    have ih := ih hlater
    obtain ⟨hfirst, hliteral⟩ : Repeats r .expr a := by
      rcases hsort with rfl | rfl <;> exact hfirst
    by_cases ha : ∃ i, a = .interpolation i
    · obtain ⟨i, rfl⟩ := ha
      rw [Node.rewriteArgs]
      refine (Rewriter.splice_redone hr (hliteral i rfl) context).bind fun out ds _ hi => ?_
      exact ih.last fun out' later _ hlater => hi.append hlater
    · have ha (i : Interpolation) : a ≠ .interpolation i := fun hi => ha ⟨i, hi⟩
      rw [Node.rewriteArgs_cons ha]
      have hfirst : (r.expr context.describe a).Ends fun n ds => ArgsRedone r context [n] ds :=
        hfirst.single ha _
      refine hfirst.bind fun n ds _ hn => ?_
      exact ih.last fun out later _ hlater => hn.append hlater

theorem optional_redone {f : Node → Walk Node} {n : Node}
    (h : n = .missing ∨
      (f n).Ends fun n' ds => n'.isMissing = n.isMissing ∧ (f n').Redoes ds n') :
    (Rewriter.optional f n).Ends fun n' ds => (Rewriter.optional f n').Redoes ds n' := by
  by_cases hmissing : n.isMissing = true
  · obtain rfl := Node.isMissing_iff.1 hmissing
    exact .pure (.pure _)
  · rw [Rewriter.optional, if_neg hmissing]
    rcases h with rfl | h
    · exact absurd rfl hmissing
    · refine h.imp fun n' ds _ ⟨hsame, hredoes⟩ => ?_
      rw [Rewriter.optional, if_neg (by rwa [hsame])]
      exact hredoes

theorem optionalExpr_redone {e : Node} (h : Repeats r (.optional .expr) e) (place : Text) :
    (Rewriter.optional (r.expr place) e).Ends fun e' ds =>
      (Rewriter.optional (r.expr place) e').Redoes ds e' := by
  refine optional_redone (h.imp_right fun h => (h.1.2 place).imp fun e' ds _ ⟨hkind, h⟩ => ⟨?_, h⟩)
  rw [Node.isMissing, Node.isMissing, hkind]

theorem Node.isMissing_eq_false {t : Node} (h : t.isType = true) : t.isMissing = false := by
  cases t <;> first | rfl | cases h

theorem optionalType_redone {reserved : Bool} {t : Node}
    (h : Repeats r (.optional (.type reserved)) t) :
    (Rewriter.optional r.type t).Ends fun t' ds => (Rewriter.optional r.type t').Redoes ds t' := by
  refine optional_redone (h.imp_right fun h => h.2.imp fun t' ds _ ⟨htype, h'⟩ => ⟨?_, h'⟩)
  rw [Node.isMissing_eq_false htype, Node.isMissing_eq_false h.1]

theorem mapM_redone {f : Node → Walk Node} {ns : List Node}
    (h : ∀ n ∈ ns, (f n).Ends fun n' ds => (f n').Redoes ds n') :
    (ns.mapM f).Ends fun ns' ds => (ns'.mapM f).Redoes ds ns' := by
  induction ns with
  | nil => exact .pure (.pure _)
  | cons n ns ih =>
    obtain ⟨hfirst, hlater⟩ := List.forall_mem_cons.1 h
    rw [List.mapM_cons]
    refine hfirst.bind fun n' ds _ hn => (ih hlater).last fun ns' later _ hns => ?_
    rw [List.mapM_cons]
    exact hn.bind fun n' => hns.last (n' :: ·)

theorem rewriteTypes_redone {reserved : Bool} {t : Node} (h : Repeats r (.type reserved) t) :
    (Node.rewriteTypes r r.nested [t]).Ends fun ts ds =>
      (Node.rewriteTypes r r.nested ts).Redoes ds ts := by
  obtain ⟨htype, h⟩ := h
  rw [Node.rewriteTypes, if_pos htype]
  refine h.bind fun t' ds _ ⟨htype', ht⟩ => ?_
  refine Walk.Ends.last (P := fun ts later => ts = [] ∧ later = []) (.pure ⟨rfl, rfl⟩) ?_
  rintro _ _ - ⟨rfl, rfl⟩
  rw [Node.rewriteTypes, if_pos htype', List.append_nil]
  exact ht.last ([·])

/-- The walk over a type that is no template. -/
theorem rewriteType_plain_redone {loc : Option Loc} {ident : Text} {args : List Node} {size : Node}
    (hargs : (Node.rewriteTypes r r.nested args).Ends fun ts ds =>
      (Node.rewriteTypes r r.nested ts).Redoes ds ts)
    (hsize : Repeats r (.optional .expr) size) :
    (r.type (.type loc ident false args size)).Ends fun t' ds =>
      t'.isType = true ∧ (r.type t').Redoes ds t' := by
  rw [Rewriter.type, rewriteType_plain_eq]
  refine hargs.bind fun inner ds _ hinner => ?_
  refine (optionalExpr_redone hsize "array size").last fun size' later _ hlater => ⟨rfl, ?_⟩
  rw [Rewriter.type, rewriteType_plain_eq]
  exact hinner.bind fun inner => hlater.last fun size => Node.type loc ident false inner size

/-- The walk over a template of types. -/
theorem rewriteType_template_redone (hr : r.parsers = .host) {loc : Option Loc} {ident : Text}
    {args : List Node} (hargs : ∀ a ∈ args, Repeats r .templateArg a) :
    (r.type (.type loc ident true args .missing)).Ends fun t' ds =>
      t'.isType = true ∧ (r.type t').Redoes ds t' := by
  rw [Rewriter.type, Node.rewriteType, rewriteTypes_of_args fun a ha => (hargs a ha).1.1]
  -- The first walk rewrites no argument as a type, and its result is again a list without types.
  simp only [if_true, pure_bind]
  refine (rewriteArgs_redone hr (.inr rfl) hargs _).bind fun ⟨out, lowered⟩ ds _ h => ?_
  refine (Rewriter.record_ends _ _ _).bind fun _ later _ ⟨_, hlater⟩ => ?_
  subst hlater
  refine .pure ⟨rfl, ?_⟩
  rw [Rewriter.type, Node.rewriteType, rewriteTypes_of_args h.1]
  simp only [if_true, pure_bind, List.append_nil]
  exact h.2.seq rfl

theorem typeArg_repeats {reserved : Bool} {loc : Loc} {t : Node}
    (h : Repeats r (.type reserved) t) : ExprRepeats r (.typeArg loc t) := by
  refine ⟨rfl, fun place => ?_⟩
  rw [Rewriter.expr, Node.rewrite]
  refine Walk.Ends.last h.2 fun t ds _ ht => ⟨rfl, ?_⟩
  rw [Rewriter.expr, Node.rewrite]
  exact ht.2.last (Node.typeArg loc)

theorem stmts_redone {body : List Node} (h : ∀ s ∈ body, Repeats r .statement s) :
    (r.stmts body).Ends fun body' ds => (r.stmts body').Redoes ds body' := by
  induction body with
  | nil => exact .pure (.pure _)
  | cons s rest ih =>
    obtain ⟨hfirst, hlater⟩ := List.forall_mem_cons.1 h
    rw [Rewriter.stmts]
    refine Walk.Ends.bind hfirst fun s' ds _ hs => (ih hlater).last fun rest' later _ hrest => ?_
    rw [Rewriter.stmts]
    exact hs.bind fun s' => hrest.last (s' :: ·)

theorem block_redone {loc : Loc} {body : List Node} (h : ∀ s ∈ body, Repeats r .statement s) :
    Repeats r .statement (.block loc body) := by
  rw [Repeats, Rewriter.stmt]
  refine (stmts_redone h).last fun body' ds _ hbody => ?_
  rw [Rewriter.stmt]
  exact hbody.last (Node.block loc)

/-- Rewriting a tree of the host grammar twice rejects the same literals twice, but for those that
are whole groups. -/
theorem repeats (hr : r.parsers = .host) {sort : NodeSort} {n : Node}
    (h : HasSort r.Steady sort n) : Repeats r sort n := by
  -- In each case the first walk is run with the hypotheses, and the second walk over its result
  -- is put together from the parts in the same order.
  induction h with
  | name | literal => exact ⟨⟨rfl, fun _ => .pure ⟨rfl, .pure _⟩⟩, by rintro _ ⟨⟩⟩
  | @interpolation i h =>
    refine ⟨Rewriter.exprRepeats_interpolation i, fun i' hi => ?_⟩
    cases hi
    exact h
  | unary hop _ ih =>
    refine ⟨⟨rfl, fun place => ?_⟩, by rintro _ ⟨⟩⟩
    rw [Rewriter.expr, Node.rewrite]
    refine (ih.1.2 _).last fun operand ds _ hoperand => ⟨rfl, ?_⟩
    rw [Rewriter.expr, Node.rewrite]
    exact hoperand.2.last fun operand => Node.unary _ _ operand
  | binary hop _ _ ihleft ihright =>
    refine ⟨⟨rfl, fun place => ?_⟩, by rintro _ ⟨⟩⟩
    rw [Rewriter.expr, Node.rewrite]
    refine (ihleft.1.2 _).bind fun left ds _ hleft => ?_
    refine (ihright.1.2 _).last fun right later _ hright => ⟨rfl, ?_⟩
    rw [Rewriter.expr, Node.rewrite]
    exact hleft.2.bind fun left => hright.2.last fun right => Node.binary _ _ left right
  | call _ _ ih ihargs =>
    refine ⟨⟨rfl, fun place => ?_⟩, by rintro _ ⟨⟩⟩
    rw [Rewriter.expr, Node.rewrite]
    refine (ih.1.2 _).bind fun callee ds _ hcallee => ?_
    refine (rewriteArgs_redone hr (.inl rfl) ihargs _).bind fun out later _ hargs => ?_
    obtain ⟨args, lowered⟩ := out
    -- The site of the first walk is no diagnostic, so recording it adds nothing to redo.
    refine (Rewriter.record_ends _ _ _).imp ?_
    rintro _ _ - ⟨rfl, rfl⟩
    refine ⟨rfl, ?_⟩
    rw [Rewriter.expr, Node.rewrite, List.append_nil]
    exact hcallee.2.bind (g := (Node.call _ · args)) fun callee => hargs.2.seq rfl
  | member _ h ih =>
    refine ⟨⟨rfl, fun place => ?_⟩, by rintro _ ⟨⟩⟩
    rw [Rewriter.expr, Node.rewrite]
    refine (ih.1.2 _).last fun value ds _ hvalue => ⟨rfl, ?_⟩
    rw [Rewriter.expr, Node.rewrite]
    exact hvalue.2.last fun value => Node.member _ value _
  | index _ _ ihvalue ihoffset =>
    refine ⟨⟨rfl, fun place => ?_⟩, by rintro _ ⟨⟩⟩
    rw [Rewriter.expr, Node.rewrite]
    refine (ihvalue.1.2 _).bind fun value ds _ hvalue => ?_
    refine (ihoffset.1.2 _).last fun offset later _ hoffset => ⟨rfl, ?_⟩
    rw [Rewriter.expr, Node.rewrite]
    exact hvalue.2.bind fun value => hoffset.2.last fun offset => Node.index _ value offset
  | instantiate _ _ ih ihargs =>
    refine ⟨⟨rfl, fun place => ?_⟩, by rintro _ ⟨⟩⟩
    rw [Rewriter.expr, Node.rewrite]
    refine (ih.1.2 _).bind fun template ds _ htemplate => ?_
    refine (rewriteArgs_redone hr (.inr rfl) ihargs _).bind fun out later _ hargs => ?_
    obtain ⟨args, lowered⟩ := out
    refine (Rewriter.record_ends _ _ _).imp ?_
    rintro _ _ - ⟨rfl, rfl⟩
    refine ⟨rfl, ?_⟩
    rw [Rewriter.expr, Node.rewrite, List.append_nil]
    exact htemplate.2.bind (g := (Node.instantiate _ · args)) fun template => hargs.2.seq rfl
  | mixin _ ihargs =>
    refine ⟨⟨rfl, fun place => ?_⟩, by rintro _ ⟨⟩⟩
    rw [Rewriter.expr, Node.rewrite]
    refine (rewriteArgs_redone hr (.inl rfl) ihargs _).bind fun out ds _ hargs => ?_
    obtain ⟨args, lowered⟩ := out
    refine (Rewriter.record_ends _ _ _).imp ?_
    rintro _ _ - ⟨rfl, rfl⟩
    refine ⟨rfl, ?_⟩
    rw [Rewriter.expr, Node.rewrite, List.append_nil]
    exact hargs.2.seq rfl
  | exprArg _ ih => exact ih
  | typeArg _ ih => exact ⟨typeArg_repeats ih, by rintro _ ⟨⟩⟩
  | builtin b => exact ⟨rfl, rewriteType_plain_redone (.pure (.pure _)) (.inl rfl)⟩
  | qualified q _ ih => exact ⟨rfl, rewriteType_plain_redone (rewriteTypes_redone ih) (.inl rfl)⟩
  | named h => exact ⟨rfl, rewriteType_plain_redone (.pure (.pure _)) (.inl rfl)⟩
  | template h _ ihargs => exact ⟨rfl, rewriteType_template_redone hr ihargs⟩
  | pointer _ ih => exact ⟨rfl, rewriteType_plain_redone (rewriteTypes_redone ih) (.inl rfl)⟩
  | array _ _ ih ihsize => exact ⟨rfl, rewriteType_plain_redone (rewriteTypes_redone ih) ihsize⟩
  | anyType _ ih => exact ih
  | missing => exact .inl rfl
  | present _ ih => exact .inr ih
  | declare _ _ iht ihvalue =>
    rw [Repeats, Rewriter.stmt]
    refine (optionalType_redone iht).bind fun t ds _ ht => ?_
    refine (ihvalue.1.2 _).last fun value later _ hvalue => ?_
    rw [Rewriter.stmt]
    exact ht.bind fun t => hvalue.2.last fun value => Node.declare _ _ t value
  | giveBack _ ih =>
    rw [Repeats, Rewriter.stmt]
    refine (optionalExpr_redone ih _).last fun value ds _ hvalue => ?_
    rw [Rewriter.stmt]
    exact hvalue.last fun value => Node.giveBack _ value
  | evaluate _ ih =>
    rw [Repeats, Rewriter.stmt]
    refine (ih.1.2 _).last fun value ds _ hvalue => ?_
    rw [Rewriter.stmt]
    exact hvalue.2.last fun value => Node.evaluate _ value
  | block _ ih => exact block_redone ih
  | function _ _ _ ihparams ihresult ihbody =>
    rw [Repeats, Rewriter.stmt]
    refine (mapM_redone ihparams).bind fun params ds _ hparams => ?_
    refine (optionalType_redone ihresult).bind fun result ds' _ hresult => ?_
    refine Walk.Ends.last (block_redone ihbody) fun body ds'' _ hbody => ?_
    rw [Rewriter.stmt]
    exact hparams.bind fun params => hresult.bind fun result =>
      hbody.last fun body => Node.function _ _ params result body
  | param _ _ iht ihdefault =>
    rw [Repeats, Rewriter.param]
    refine (optionalExpr_redone ihdefault _).bind fun default ds _ hdefault => ?_
    refine Walk.Ends.last iht.2 fun t later _ ht => ?_
    rw [Rewriter.param]
    exact hdefault.bind fun default => ht.2.last fun t => Node.param _ t default

end Trees

/-! ## Programs -/

namespace Rewriter

/-- Literals in what comes out of a literal are shorter than it, so rewriting gets through. -/
theorem steady (hr : r.parsers = .host) {i : Interpolation} (hi : i.Ordered) : r.Steady i := by
  induction hlength : i.body.chars.length using Nat.strongRecOn generalizing i with
  | ind n ih =>
    subst hlength
    refine ⟨hi, fun node hnode => ⟨nested_eq_expr hr hnode, ?_⟩⟩
    -- A literal within another one has a shorter body, which the induction goes down on.
    have hwithin (j : Interpolation) (hj : i.Within j) : r.Steady j := ih _ hj.2 hj.1 rfl
    cases hnode.2 with
    | name => exact ⟨rfl, fun _ => .pure ⟨rfl, .pure _⟩⟩
    | expr h => exact (repeats hr (h.mono hwithin)).1
    | type loc h => exact typeArg_repeats (repeats hr (h.mono hwithin))

theorem program_redone (hr : r.parsers = .host) {source : Text} {p : Program}
    (hp : parseProgram source = .ok p) :
    (r.program p).Ends fun p' ds => (r.program p').Redoes ds p' := by
  refine stmts_redone fun s hs => repeats hr ?_
  exact (hasSort_of_parseProgram hp s hs).mono fun i hi =>
    steady hr (Interpolation.ordered_of_laidOut_source hi.1)

/-- A second rewriting that changes nothing is one without whole groups in the first one. -/
theorem isWholeGroup_of_settled {p' : Program} {reported : List Diagnostic}
    (h : r.program p' = .of { diagnostics := reported } (.ok p')) :
    ∀ d ∈ reported, d.isWholeGroup = false := by
  have hgroupless := program_groupless (r := r) p' p'
  rw [h] at hgroupless
  exact hgroupless rfl rfl trivial

/-- Rewriting the result of a rewriting reports every literal again that was rejected, in the same
words and in the same order, unless the literal was a whole group. If no literal was, the second
rewriting changes nothing, lowers nothing and reports nothing else; and it does so only then. -/
theorem program_again (hr : r.parsers = .host) {source : Text} {p p' : Program}
    (hp : parseProgram source = .ok p) (h : (r.program p).result = .ok p') :
    let reported := (r.program p).log.diagnostics
    (r.program p' = .of { diagnostics := reported } (.ok p') ↔
      ∀ d ∈ reported, d.isWholeGroup = false) ∧
    ∀ p'', (r.program p').result = .ok p'' →
      (reported.filter fun d => !d.isWholeGroup).Sublist (r.program p').log.diagnostics := by
  intro reported
  have hredoes := program_redone hr hp p' h
  exact ⟨⟨isWholeGroup_of_settled, hredoes.settled⟩, hredoes.again⟩

/-- A literal that is a value and not an argument, `let x = i"a";`. -/
def keptValue : Text :=
  ['l', 'e', 't', ' ', 'x', ' ', '=', ' ', 'i', '"', 'a', '"', ';']

/-- The literal. -/
def keptValue.literal : Interpolation := ⟨⟨1, 9⟩, .interspersed, ⟨[('a', ⟨1, 11⟩)], ⟨1, 12⟩⟩⟩

/-- The statement. -/
def keptValue.statement : Node := .declare ⟨1, 1⟩ ['x'] .missing (.interpolation literal)

theorem parseProgram_keptValue : parseProgram keptValue = .ok [keptValue.statement] := by
  -- The tokens are given, so that the phrase over them gives the program without running the
  -- parser.
  let word : Token := ⟨.keyword .letWord, ['l', 'e', 't'], 0, ⟨1, 1⟩⟩
  let ident : Token := ⟨.name, ['x'], 4, ⟨1, 5⟩⟩
  let equal : Token := ⟨.mark .equal, ['='], 6, ⟨1, 7⟩⟩
  let value : Token := ⟨.interpolatedLit, ['i', '"', 'a', '"'], 8, ⟨1, 9⟩⟩
  let semicolon : Token := ⟨.mark .semicolon, [';'], 12, ⟨1, 13⟩⟩
  have htokens : (Lexed.ofText keptValue).tokens =
      word :: ident :: ([] ++ equal :: ([value] ++ [semicolon])) ++ [] := by decide +kernel
  have hvalue : Phrase .expr [value] (.interpolation keptValue.literal) :=
    Phrase.toExpr (.ofPrimary (.interpolation rfl rfl))
  refine (@parse_eq_ok_iff_isTree .program keptValue _).2 ⟨by decide +kernel, ?_⟩
  rw [htokens]
  refine ⟨[(_, keptValue.statement)], rfl, rfl, List.forall_mem_singleton.2 ?_⟩
  exact .declare rfl rfl .noAscription rfl hvalue rfl

/-- The literal is reported and left in its place. -/
theorem program_keptValue :
    ({} : Rewriter).program [keptValue.statement] = .of { diagnostics :=
      [keptValue.literal.diagnostic none
        { cause := .misplaced .interspersed "variable initializer" }] }
      (.ok [keptValue.statement]) := Walk.ext_log rfl rfl

theorem program_again_value :
    let p := [keptValue.statement]
    let reported := [keptValue.literal.diagnostic none
      { cause := .misplaced .interspersed "variable initializer" }]
    ({} : Rewriter).parsers = .host ∧ parseProgram keptValue = .ok p ∧
      (({} : Rewriter).program p).result = .ok p ∧
      (({} : Rewriter).program p).log.diagnostics = reported ∧
      (({} : Rewriter).program p = .of { diagnostics := reported } (.ok p) ↔
        ∀ d ∈ reported, d.isWholeGroup = false) ∧
      ∀ p'', (({} : Rewriter).program p).result = .ok p'' →
        (reported.filter fun d => !d.isWholeGroup).Sublist
          (({} : Rewriter).program p).log.diagnostics := by
  intro p reported
  have hresult : (({} : Rewriter).program p).result = .ok p :=
    congrArg Walk.result program_keptValue
  have hlog : (({} : Rewriter).program p).log.diagnostics = reported :=
    congrArg (fun walk => walk.log.diagnostics) program_keptValue
  have hagain := program_again (r := {}) rfl parseProgram_keptValue hresult
  rw [hlog] at hagain
  exact ⟨rfl, parseProgram_keptValue, hresult, hlog, hagain.1, by rw [hlog]; exact hagain.2⟩

/-- A literal with an empty body is rejected wherever no argument list is. -/
theorem reject_empty {i : Interpolation} (hbody : i.body.text = []) (place : Text) :
    r.reject i place = .of { diagnostics := [i.diagnostic r.file
      { cause := .misplaced i.kind (Context.other place).describe }] } (.ok ()) := by
  have hlower : i.lower (.other place) r.parsers r.file = .ok (.error (i.diagnostic r.file
      { cause := .misplaced i.kind (Context.other place).describe })) := by
    rw [Interpolation.lower, Interpolation.attempt, hbody]
    rfl
  rw [reject, hlower]
  exact Walk.ext_log rfl rfl

/-- An empty literal that is the whole group of another one is reported, and it is left in the
argument list that the other one was in. -/
theorem program_wholeGroup {i inner : Interpolation} {resolved : List Segment} {raw : Text}
    (hlower : i.lower .callArgument .host none =
      .ok (.ok ⟨resolved, [.value .expression raw (.interpolation inner)]⟩))
    (hpos : 0 < i.body.chars.length) (hinner : inner.body.text = []) (loc callLoc calleeLoc : Loc)
    (ident : Text) :
    ∃ sites, ({} : Rewriter).program
        [.evaluate loc (.call callLoc (.name calleeLoc ident) [.interpolation i])] =
      .of ⟨sites, [inner.diagnostic none { cause := .misplaced inner.kind "interpolation group" }]⟩
        (.ok [.evaluate loc (.call callLoc (.name calleeLoc ident) [.interpolation inner])]) := by
  obtain ⟨levels, hlevels⟩ := Nat.exists_eq_add_one.2 hpos
  let d := inner.diagnostic none { cause := .misplaced inner.kind "interpolation group" }
  -- The pass over the group's node rejects the empty literal, which stands in no argument list
  -- there.
  have hnested : ({} : Rewriter).nested i (.interpolation inner) =
      .of { diagnostics := [d] } (.ok (.interpolation inner)) := by
    rw [nested, hlevels]
    change ({} : Rewriter).nestedWithin (levels + 1) _ = _
    rw [nestedWithin, Node.rewrite, reject_empty hinner]
    exact Walk.ext_log rfl rfl
  have hsplice : ({} : Rewriter).splice ({} : Rewriter).nested .callArgument i =
      .of { diagnostics := [d] } (.ok ([.interpolation inner],
        [[.value .expression raw (.interpolation inner)]])) := by
    have hlower : Walk.ofFailing (i.lower .callArgument .host none) = pure (.ok ⟨resolved, _⟩) :=
      congrArg Walk.ofFailing hlower
    rw [splice, hlower, pure_bind]
    simp only [List.mapM_cons, List.mapM_nil, argumentNode, hnested]
    exact Walk.ext_log rfl rfl
  simp only [program, stmts, stmt, expr, Node.rewrite, Node.rewriteArgs, hsplice]
  exact ⟨_, Walk.ext_log rfl rfl⟩

/-- The literal `i""` as the whole group of another literal is rejected there, and it is left in the
argument list of the call, where a second rewriting does not reject it. -/
theorem program_again_differs :
    let source := callSource .interspersed ['$', '(', 'i', '"', '"', ')']
    ∃ p p', parseProgram source = .ok p ∧ (({} : Rewriter).program p).result = .ok p' ∧
      ({} : Rewriter).program p' ≠
        .of { diagnostics := (({} : Rewriter).program p).log.diagnostics } (.ok p') := by
  intro source
  obtain ⟨loc, callLoc, calleeLoc, i, hparse, hkind, hbody⟩ :=
    parseProgram_callSource .interspersed ['$', '(', 'i', '"', '"', ')']
  let empty : Interpolation := ⟨.start, .interspersed, .verbatim [] .start⟩
  -- The group's text is the printed form of an empty literal, so it is parsed to one.
  obtain ⟨text, e, htext, he, hbare⟩ := parseExpr_writeExpr (e := .interpolation empty)
    (.interpolation (Q := fun _ => True) trivial) (by rintro x hx; cases hx)
  obtain rfl : (['i', '"', '"'] : Text) = text := Except.ok.inj htext
  obtain ⟨j, rfl, -, hempty⟩ := Node.bare_eq_interpolation hbare
  have hsegments : segments i.body.text = .ok [.text [] 0 0,
      .insertion (.group ['i', '"', '"'] 0 6 none .missing), .text [] 6 6] := by
    rw [hbody]
    rfl
  obtain ⟨resolved, hlower⟩ := Interpolation.lower_group hkind hsegments he rfl none
  rw [Insertion.exprNode, Node.mapLoc] at hlower
  have hinner : (j.mapLoc (Insertion.place ['i', '"', '"'] 0 i.locate)).body.text = [] :=
    (PlacedText.text_map _ _).trans hempty
  -- Where the empty literal stands is of no account from here on.
  generalize j.mapLoc (Insertion.place ['i', '"', '"'] 0 i.locate) = inner at hlower hinner
  have hlength : i.body.chars.length = 6 := by
    rw [← List.length_map (·.1), ← PlacedText.text, hbody]
    rfl
  obtain ⟨sites, hprogram⟩ :=
    program_wholeGroup hlower (by rw [hlength]; decide) hinner loc callLoc calleeLoc ['g']
  refine ⟨_, _, hparse, congrArg Walk.result hprogram, fun hsettled => ?_⟩
  rw [hprogram] at hsettled
  have hgroup := isWholeGroup_of_settled hsettled _ (List.mem_singleton_self _)
  rw [(inner.isWholeGroup_misplaced none _).2 rfl] at hgroup
  cases hgroup

end Rewriter

end Splice
