import Splice.Parse.Source
import Splice.Proofs.Body.Lowering
import Splice.Proofs.Embedding.Bodies
import Splice.Proofs.Printing.Statements
import Splice.Proofs.Rewrite.LiteralFree

/-!
# What embedded texts, names and groups become

A literal that is written for given texts with names and groups between them is lowered to these
texts and to the nodes of the names and groups.

* `Embedded.node`: the node of what is embedded.
* `embeddedArguments`: the arguments that a literal is written for.
* `Insertion.resolve_isFor`: what was found for something embedded is given its node.
* `Runs.arguments_match`: the argument list of the literal.
* `Node.rewrite_embed`: a call with the literal as its only argument.
* `Rewriter.program_embed`: a program that consists of such a call.
-/

namespace Splice

/-- The node of what is embedded. A group that is an expression is one even if it could be a
type. -/
def Embedded.node : Embedded → Node
  | .name ident => .name .start ident
  | .group raw =>
    match parseExpr raw, parseType raw with
    | .ok e, _ => e
    | .error _, .ok t => .typeArg .start t
    | .error _, .error _ => .missing

/-- A text as an argument, unless it is empty. -/
def textArgument (t : Text) : List Node := if t = [] then [] else [.literal .start (.string t)]

/-- The arguments of a literal that is written for a text and, behind it, what is embedded before
other texts. -/
def embeddedArguments (first : Text) (rest : List (Embedded × Text)) :
    InterpolationKind → List Node
  | .interspersed => textArgument first ++ rest.flatMap fun (e, t) => e.node :: textArgument t
  | .formatted =>
    .literal .start (.string (first ++ rest.flatMap (·.2))) :: rest.map (·.1.node)

namespace Attempt

variable {α : Type}

theorem ofRejecting_ok (a : α) : ofRejecting (.ok a) = pure a := rfl

theorem ofFailing_ok (a : α) : ofFailing (.ok a) = pure a := rfl

end Attempt

/-! ## Insertions -/

/-- A node is equal to another one up to its places, and rewriting leaves it as it is. -/
structure Node.Settles (n n' : Node) : Prop where
  bare : n.bare = n'.bare
  present : n.isMissing = false
  kept : ∀ r nested place, n.rewrite r nested place = pure n

theorem HasSort.literals_eq_nil {sort : NodeSort} {n : Node}
    (h : HasSort (fun _ => False) sort n) : n.literals = [] :=
  List.eq_nil_iff_forall_not_mem.2 h.of_mem_literals

theorem HasSort.map_free {sort : NodeSort} {n : Node} (h : HasSort (fun _ => False) sort n)
    (f : Loc → Loc) : HasSort (fun _ => False) sort (n.mapLoc f) := h.map fun _ => False.elim

/-- An insertion that has the node of what is embedded. -/
def Insertion.IsResolvedFor (ins : Insertion) (e : Embedded) : Prop :=
  ∃ role source n, ins.argument = .ok (.value role source n) ∧ n.Settles e.node

namespace Insertion

variable {raw : Text} (locate : Locate) (start stop : Nat)

/-- The node of a text that is embedded as a group. -/
theorem resolveGroup_isFor (h : Embedded.IsGroup raw) :
    ∃ ins, resolveGroup .host (some locate) raw start stop = pure ins ∧
      ins.IsResolvedFor (.group raw) := by
  have hfree {goal : Goal} {v : goal.body.Value} (hv : parse goal raw = .ok v) :
      goal.body.Holds (fun _ => False) v :=
    parse_holds hv fun token htoken hkind => absurd hkind (h.literalFree token htoken)
  cases he : parseExpr raw with
  | ok e =>
    have hsort : HasSort (fun _ => False) .expr e := @hfree .expr e he
    have hmoved := hsort.map_free (place raw start locate)
    refine ⟨_, resolveGroup_of_parseExpr (some locate) start stop he, .expression, raw, _, ?_, ?_,
      hmoved.not_missing, ?_⟩
    · exact if_neg (by rw [exprNode, hmoved.not_missing]; decide)
    · rw [Embedded.node, he]
      exact e.bare_mapLoc _
    · exact fun r nested place => (rewrite_literalFree hmoved).2 hmoved.literals_eq_nil place
  | error failure =>
    obtain ⟨e, he'⟩ | ⟨t, ht⟩ := h.parsed
    · rw [he] at he'; cases he'
    have hsort : HasSort (fun _ => False) (.type false) t := @hfree .type t ht
    have hmoved := hsort.map_free (place raw start locate)
    have hgroup := resolveGroup_of_parseType (some locate) start stop ht he
    refine ⟨_, hgroup, .type, raw, _, rfl, ?_, rfl, ?_⟩
    · rw [Embedded.node, he, ht]
      exact congrArg (Node.typeArg .start) (t.bare_mapLoc _)
    · intro r nested place
      rw [typeNode, Node.rewrite, (rewrite_literalFree hmoved).2 hmoved.literals_eq_nil, pure_bind]

/-- What was found for something embedded is given its node. -/
theorem resolve_isFor {ins : Insertion} {e : Embedded} {t : Text} (h : ins.IsFor e)
    (he : e.StandsBefore t) :
    ∃ ins', ins.resolve .host (some locate) = pure ins' ∧ ins'.IsResolvedFor e := by
  cases ins with
  | name ident start stop node =>
    cases e with
    | name ident' =>
      obtain rfl : ident = ident' := h
      exact ⟨_, rfl, .expression, ident, _, rfl, rfl, rfl, fun _ _ _ => rfl⟩
    | group => cases h
  | group raw start stop role node =>
    cases e with
    | group raw' =>
      obtain rfl : raw = raw' := h
      exact resolveGroup_isFor locate start stop he
    | name => cases h

end Insertion

theorem Segment.resolve_match {found : List Segment} {first : Text} {rest : List (Embedded × Text)}
    (h : (Runs.ofSegments found).Match Insertion.IsFor first rest)
    (hrest : ∀ p ∈ rest, p.1.StandsBefore p.2) (locate : Locate) :
    ∃ resolved, resolve .host (some locate) found = pure resolved ∧
      (Runs.ofSegments resolved).Match Insertion.IsResolvedFor first rest := by
  induction found generalizing first rest with
  | nil =>
    obtain ⟨hfirst, hnil⟩ := h
    cases hnil
    exact ⟨[], rfl, hfirst, .nil⟩
  | cons segment found ih =>
    obtain ⟨hfirst, hpairs⟩ := h
    cases segment with
    | text t start stop =>
      obtain ⟨resolved, hresolved, hmatch⟩ := ih ⟨rfl, hpairs⟩ hrest
      exact ⟨.text t start stop :: resolved, by simp [resolve, hresolved],
        by rw [← hfirst, Runs.ofSegments, Runs.ofSegments, hmatch.first], hmatch.rest⟩
    | dollar start stop =>
      obtain ⟨resolved, hresolved, hmatch⟩ := ih ⟨rfl, hpairs⟩ hrest
      exact ⟨.dollar start stop :: resolved, by simp [resolve, hresolved],
        by rw [← hfirst, Runs.ofSegments, Runs.ofSegments, hmatch.first], hmatch.rest⟩
    | insertion ins =>
      cases hpairs with
      | @cons _ q _ rest hpair hpairs =>
        obtain ⟨hins, ht⟩ := hpair
        obtain ⟨hfits, hlater⟩ := List.forall_mem_cons.1 hrest
        obtain ⟨ins', hresolve, hins'⟩ := ins.resolve_isFor locate hins hfits
        obtain ⟨resolved, hresolved, hmatch⟩ := ih ⟨rfl, hpairs⟩ hlater
        refine ⟨.insertion ins' :: resolved, by simp [resolve, hresolve, hresolved], hfirst, ?_⟩
        exact .cons ⟨hins', hmatch.first.trans ht⟩ hmatch.rest

/-! ## Arguments -/

/-- An argument is a text, or the node of something embedded. -/
def Argument.IsFor (embedded : List Node) : Argument → Node → Prop
  | .text t, n => n = .literal .start (.string t)
  | .value _ _ m, n => m.Settles n ∧ n ∈ embedded

theorem Argument.isFor_ofText? (embedded : List Node) (t : Text) :
    List.Forall₂ (IsFor embedded) (ofText? t) (textArgument t) := by
  unfold ofText? textArgument
  split
  next => exact .nil
  next => exact .cons rfl .nil

namespace Runs

variable {runs : Runs} {first : Text} {rest : List (Embedded × Text)} {embedded : List Node}

theorem interspersedRest_match {pairs : List (Insertion × Text)}
    (h : List.Forall₂ (fun p q => p.1.IsResolvedFor q.1 ∧ p.2 = q.2) pairs rest)
    (hmem : ∀ p ∈ rest, p.1.node ∈ embedded) :
    ∃ args, interspersedRest pairs = .ok args ∧ List.Forall₂ (Argument.IsFor embedded) args
      (rest.flatMap fun (e, t) => e.node :: textArgument t) := by
  induction h with
  | nil => exact ⟨[], rfl, .nil⟩
  | @cons p q pairs rest hpair _ ih =>
    obtain ⟨⟨role, source, n, hargument, hn⟩, ht⟩ := hpair
    obtain ⟨hq, hlater⟩ := List.forall_mem_cons.1 hmem
    obtain ⟨args, hargs, hmatch⟩ := ih hlater
    refine ⟨.value role source n :: Argument.ofText? q.2 ++ args, ?_, .cons ⟨hn, hq⟩ ?_⟩
    · rw [interspersedRest, hargument, hargs, ht]
      rfl
    · exact List.rel_append (Argument.isFor_ofText? embedded q.2) hmatch

theorem mapM_argument_match {pairs : List (Insertion × Text)}
    (h : List.Forall₂ (fun p q => p.1.IsResolvedFor q.1 ∧ p.2 = q.2) pairs rest)
    (hmem : ∀ p ∈ rest, p.1.node ∈ embedded) :
    ∃ args, (pairs.map (·.1)).mapM Insertion.argument = .ok args ∧
      List.Forall₂ (Argument.IsFor embedded) args (rest.map (·.1.node)) := by
  induction h with
  | nil => exact ⟨[], rfl, .nil⟩
  | @cons p q pairs rest hpair _ ih =>
    obtain ⟨⟨role, source, n, hargument, hn⟩, -⟩ := hpair
    obtain ⟨hq, hlater⟩ := List.forall_mem_cons.1 hmem
    obtain ⟨args, hargs, hmatch⟩ := ih hlater
    refine ⟨.value role source n :: args, ?_, .cons ⟨hn, hq⟩ hmatch⟩
    rw [List.map_cons, List.mapM_cons, hargument, hargs]
    rfl

theorem map_text_match {R : Insertion → Embedded → Prop} {pairs : List (Insertion × Text)}
    (h : List.Forall₂ (fun p q => R p.1 q.1 ∧ p.2 = q.2) pairs rest) :
    pairs.map (·.2) = rest.map (·.2) := by
  induction h with
  | nil => rfl
  | cons hpair _ ih => rw [List.map_cons, List.map_cons, ih, hpair.2]

/-- The argument list of a literal whose insertions have their nodes. -/
theorem arguments_match (h : runs.Match Insertion.IsResolvedFor first rest)
    (kind : InterpolationKind) :
    ∃ args, runs.arguments kind = .ok args ∧
      List.Forall₂ (Argument.IsFor (rest.map (·.1.node))) args
        (embeddedArguments first rest kind) := by
  obtain ⟨hfirst, hrest⟩ := h
  have hmem : ∀ p ∈ rest, p.1.node ∈ rest.map (·.1.node) :=
    fun p hp => List.mem_map_of_mem hp
  cases kind with
  | interspersed =>
    obtain ⟨args, hargs, hmatch⟩ := interspersedRest_match hrest hmem
    refine ⟨Argument.ofText? runs.first ++ args, ?_, ?_⟩
    · rw [arguments, interspersed, hargs]
      rfl
    · rw [hfirst]
      exact List.rel_append (Argument.isFor_ofText? _ first) hmatch
  | formatted =>
    obtain ⟨args, hargs, hmatch⟩ := mapM_argument_match hrest hmem
    have htexts := map_text_match hrest
    refine ⟨.text runs.texts.flatten :: args, ?_, .cons ?_ hmatch⟩
    · rw [arguments, formatted, insertions, hargs]
      rfl
    · rw [Argument.IsFor, texts, htexts, hfirst, List.flatten_cons, List.flatMap_def]

end Runs

/-! ## The call -/

/-- The nodes of the arguments, which rewriting leaves as they are. -/
theorem Rewriter.mapM_argumentNode {nested : Node → Walk Node} {embedded nodes : List Node}
    {args : List Argument} (h : List.Forall₂ (Argument.IsFor embedded) args nodes)
    (hnested : ∀ m n, m.Settles n → n ∈ embedded → nested m = pure m) (loc : Loc) :
    ∃ out, args.mapM (argumentNode nested loc) = pure out ∧
      out.map Node.bare = nodes.map Node.bare := by
  induction h with
  | nil => exact ⟨[], rfl, rfl⟩
  | @cons a n args nodes hargument _ ih =>
    obtain ⟨out, hout, hbare⟩ := ih
    rw [List.mapM_cons, hout, List.map_cons, ← hbare]
    cases a with
    | text t =>
      obtain rfl : n = .literal .start (.string t) := hargument
      exact ⟨.literal loc (.string t) :: out, rfl, rfl⟩
    | value role source m =>
      obtain ⟨hm, hn⟩ := hargument
      refine ⟨m :: out, ?_, by rw [List.map_cons, hm.bare]⟩
      rw [argumentNode, hnested m n hm hn]
      rfl

/-- A literal is lowered in its place, where nothing else has to be rewritten. -/
theorem Rewriter.splice_eq_pure {r : Rewriter} {nested : Interpolation → Node → Walk Node}
    {context : Context} {i : Interpolation} {lowering : Lowering} {nodes : List Node}
    (hlower : i.lower context r.parsers r.file = .ok (.ok lowering))
    (hnodes : lowering.args.mapM (argumentNode (nested i) i.loc) = pure nodes) :
    r.splice nested context i = pure (nodes, [lowering.args]) := by
  have hwalk : Walk.ofFailing (i.lower context r.parsers r.file) = pure (.ok lowering) := by
    rw [hlower]
    rfl
  rw [splice, hwalk, pure_bind]
  simp only [hnodes, pure_bind]

namespace Interpolation

variable {i : Interpolation} {first : Text} {rest : List (Embedded × Text)}

/-- A literal that is written for texts and what is embedded between them is lowered to these,
where its context admits it. -/
theorem lower_embed (hbody : i.body.text = embed first rest)
    (hrest : ∀ p ∈ rest, p.1.StandsBefore p.2) {context : Context}
    (hcontext : context.admits i.kind = true) (file : Option Text) :
    ∃ lowering, i.lower context .host file = .ok (.ok lowering) ∧
      List.Forall₂ (Argument.IsFor (rest.map (·.1.node))) lowering.args
        (embeddedArguments first rest i.kind) := by
  obtain ⟨found, hfound, hmatch⟩ := segments_embed first hrest
  obtain ⟨resolved, hresolved, hmatch⟩ := Segment.resolve_match hmatch hrest i.locate
  obtain ⟨args, hargs, hmatch⟩ := Runs.arguments_match hmatch i.kind
  have hattempt : i.attempt context .host = pure ⟨resolved, args⟩ := by
    simp only [attempt, hbody, hfound, hresolved, Context.check, hcontext, lowerSegments, hargs,
      Attempt.ofRejecting_ok, Attempt.ofFailing_ok, pure_bind, if_true]
  exact ⟨⟨resolved, args⟩, by rw [lower, hattempt]; rfl, hmatch⟩

end Interpolation

/-- What is embedded makes a body longer. -/
theorem embed_ne_nil {first : Text} {rest : List (Embedded × Text)} {e : Embedded} {t : Text}
    (h : (e, t) ∈ rest) : embed first rest ≠ [] := by
  cases rest with
  | nil => cases h
  | cons p rest =>
    obtain ⟨e, t⟩ := p
    rw [embed, embedRest_cons]
    cases e <;> simp [Embedded.source]

/-- Rewriting a call whose argument is a literal that is written for texts and what is embedded
between them: it records one site, and the arguments of the call are these. -/
theorem Node.rewrite_embed {r : Rewriter} (hr : r.parsers = .host) {i : Interpolation}
    {first : Text} {rest : List (Embedded × Text)} (hbody : i.body.text = embed first rest)
    (hrest : ∀ p ∈ rest, p.1.StandsBefore p.2) (loc calleeLoc : Loc) (ident : Text)
    (place : Text) :
    ∃ args lowered, (Node.call loc (.name calleeLoc ident) [.interpolation i]).rewrite r r.nested
        place = .of { sites := [⟨loc, .call loc (.name calleeLoc ident) args, [lowered]⟩] }
          (.ok (.call loc (.name calleeLoc ident) args)) ∧
      args.map bare = (embeddedArguments first rest i.kind).map bare := by
  have hcontext : Context.callArgument.admits i.kind = true := rfl
  obtain ⟨lowering, hlower, hmatch⟩ := i.lower_embed hbody hrest hcontext r.file
  have hnested (m n : Node) (hm : m.Settles n) (hn : n ∈ rest.map (·.1.node)) :
      r.nested i m = pure m := by
    obtain ⟨⟨e, t⟩, hp, -⟩ := List.mem_map.1 hn
    have hchars : i.body.chars ≠ [] := by
      intro hnil
      exact embed_ne_nil hp (by rw [← hbody, PlacedText.text, hnil]; rfl)
    obtain ⟨c, chars, hchars⟩ := List.exists_cons_of_ne_nil hchars
    have hlevels : i.body.chars.length + r.moreLevels = chars.length + r.moreLevels + 1 := by
      rw [hchars, List.length_cons]
      omega
    rw [Rewriter.nested, hlevels, Rewriter.nestedWithin, hm.kept]
  obtain ⟨args, hargs, hbare⟩ := Rewriter.mapM_argumentNode hmatch hnested i.loc
  refine ⟨args, lowering.args, ?_, hbare⟩
  rw [← hr] at hlower
  have hsplice := Rewriter.splice_eq_pure hlower hargs
  simp only [Node.rewrite, Node.rewriteArgs, hsplice, pure_bind, List.append_nil]
  exact Walk.ext_log rfl rfl

/-! ## The program -/

/-- A program that calls `g` with a literal of some kind that has a body. -/
def callSource (kind : InterpolationKind) (body : Text) : Text :=
  ↑ 'g' :: ↑ '(' :: kind.letter :: quote body ++ ([')', ';'] : Text)

theorem parseProgram_callSource (kind : InterpolationKind) (body : Text) :
    ∃ loc callLoc calleeLoc i, parseProgram (callSource kind body) =
      .ok [.evaluate loc (.call callLoc (.name calleeLoc ['g']) [.interpolation i])] ∧
        i.kind = kind ∧ i.body.text = body := by
  let literal : Interpolation := ⟨.start, kind, .verbatim body .start⟩
  let call : Node := .call .start (.name .start ['g']) [.interpolation literal]
  have hname : IsName ['g'] :=
    ⟨⟨'g', [], rfl, by decide⟩, List.forall_mem_singleton.2 rfl, by decide⟩
  have hsort : HasSort (fun _ => True) .expr call :=
    .call (.name hname) (List.forall_mem_singleton.2 (.interpolation trivial))
  have htext : call.text ++ ([';'] : Text) = callSource kind body := by
    simp [call, literal, callSource, Node.text, Node.texts, commaSeparated, enclosed, Node.strength,
      Interpolation.text]
  obtain ⟨loc, e, hparse, hbare⟩ := parseProgram_writeExpr hsort (by rintro x hx; cases hx)
  rw [htext] at hparse
  obtain ⟨callLoc, callee, args, rfl, hcallee, hargs⟩ := Node.bare_eq_call hbare
  obtain ⟨calleeLoc, rfl⟩ := Node.bare_eq_name hcallee
  obtain ⟨arg, rfl, harg⟩ := List.map_eq_singleton_iff.1 hargs
  obtain ⟨i, rfl, hkind, hbody⟩ := Node.bare_eq_interpolation harg
  exact ⟨loc, callLoc, calleeLoc, i, hparse, hkind, hbody.trans (PlacedText.text_verbatim _ _)⟩

/-- The program is rewritten to a call with what the literal is written for as its arguments. -/
theorem Rewriter.program_callSource {r : Rewriter} (hr : r.parsers = .host)
    (kind : InterpolationKind) (first : Text) {rest : List (Embedded × Text)}
    (hrest : ∀ p ∈ rest, p.1.StandsBefore p.2) :
    ∃ p loc callLoc calleeLoc args lowered,
      parseProgram (callSource kind (embed first rest)) = .ok p ∧
      r.program p =
        .of { sites := [⟨callLoc, .call callLoc (.name calleeLoc ['g']) args, [lowered]⟩] }
          (.ok [.evaluate loc (.call callLoc (.name calleeLoc ['g']) args)]) ∧
      args.map Node.bare = (embeddedArguments first rest kind).map Node.bare := by
  obtain ⟨loc, callLoc, calleeLoc, i, hparse, rfl, hbody⟩ :=
    parseProgram_callSource kind (embed first rest)
  obtain ⟨args, lowered, hrewrite, hbare⟩ :=
    Node.rewrite_embed hr hbody hrest callLoc calleeLoc ['g'] "expression statement"
  refine ⟨_, loc, callLoc, calleeLoc, args, lowered, hparse, ?_, hbare⟩
  simp only [Rewriter.program, Rewriter.stmts, Rewriter.stmt, Rewriter.expr, hrewrite]
  exact Walk.ext_log rfl rfl

/-- A call with a literal that is written for texts and what is embedded between them is rewritten
to a call with these as its arguments: nothing is reported, and one site is recorded. -/
theorem Rewriter.program_embed {r : Rewriter} (hr : r.parsers = .host) (kind : InterpolationKind)
    (first : Text) {rest : List (Embedded × Text)} (hrest : ∀ p ∈ rest, p.1.StandsBefore p.2) :
    ∃ p loc callLoc calleeLoc args lowered,
      readSource r.file (callSource kind (embed first rest)) = .ok (.ok p) ∧
      r.program p =
        .of { sites := [⟨callLoc, .call callLoc (.name calleeLoc ['g']) args, [lowered]⟩] }
          (.ok [.evaluate loc (.call callLoc (.name calleeLoc ['g']) args)]) ∧
      args.map Node.bare = (embeddedArguments first rest kind).map Node.bare := by
  obtain ⟨p, loc, callLoc, calleeLoc, args, lowered, hparse, hrewrite, hbare⟩ :=
    program_callSource hr kind first hrest
  exact ⟨p, loc, callLoc, calleeLoc, args, lowered, by rw [readSource, hparse], hrewrite, hbare⟩

/-- A text in which no slash occurs does not end in a comment. -/
theorem not_endsInLineComment {t : Text} (h : ↑ '/' ∉ t) : ¬ EndsInLineComment t := by
  rintro ⟨lexemes, last, hcuts, ⟨rest, hlast⟩⟩
  refine h ?_
  rw [hcuts.text_eq, joined_append, joined_cons, ← hlast]
  simp

theorem Rewriter.program_embed_sum :
    let rest : List (Embedded × Text) :=
      [(.name ['x'], ['"', '$']), (.group ['a', ' ', '+', ' ', 'b'], [])]
    ({} : Rewriter).parsers = .host ∧ (∀ p ∈ rest, p.1.StandsBefore p.2) ∧
    ∃ p loc callLoc calleeLoc args lowered,
      readSource none (callSource .interspersed (embed ['\n'] rest)) = .ok (.ok p) ∧
      ({} : Rewriter).program p =
        .of { sites := [⟨callLoc, .call callLoc (.name calleeLoc ['g']) args, [lowered]⟩] }
          (.ok [.evaluate loc (.call callLoc (.name calleeLoc ['g']) args)]) ∧
      args.map Node.bare = (embeddedArguments ['\n'] rest .interspersed).map Node.bare := by
  have hname (c : CodePoint) (hc : isNameStart c = true) (hword : Keyword.ofText? [c] = none) :
      IsName [c] :=
    ⟨⟨c, [], rfl, hc⟩, List.forall_mem_singleton.2 (by simp [isNamePart, hc]), hword⟩
  have hsum : HasSort (fun _ => True) .expr
      (.binary .start .add (.name .start ['a']) (.name .start ['b'])) :=
    .binary (show (Mark.plus, BinaryOp.add) ∈ BinaryOp.marks by decide)
      (.name (hname 'a' (by decide) (by decide))) (.name (hname 'b' (by decide) (by decide)))
  obtain ⟨text, e, htext, hparse, -⟩ := parseExpr_writeExpr hsum (by rintro x hx; cases hx)
  obtain rfl : (['a', ' ', '+', ' ', 'b'] : Text) = text := Except.ok.inj htext
  have hgroup : Embedded.IsGroup ['a', ' ', '+', ' ', 'b'] :=
    ⟨.inl ⟨e, hparse⟩, by decide +kernel, not_endsInLineComment (by decide)⟩
  have hrest : ∀ p ∈ [(Embedded.name ['x'], (['"', '$'] : Text)),
      (.group ['a', ' ', '+', ' ', 'b'], [])], p.1.StandsBefore p.2 := by
    refine List.forall_mem_cons.2 ⟨⟨⟨'x', [], rfl, by decide, List.forall_mem_nil _⟩, ?_⟩,
      List.forall_mem_singleton.2 hgroup⟩
    rintro _ ⟨⟩
    decide
  exact ⟨rfl, hrest, Rewriter.program_embed (r := {}) rfl .interspersed ['\n'] hrest⟩

/-! ## A group on its own -/

/-- A literal whose body is one group with an expression becomes the expression. -/
theorem Interpolation.lower_group {i : Interpolation} {raw : Text} {stop : Nat} {e : Node}
    (hkind : i.kind = .interspersed)
    (hsegments : segments i.body.text = .ok [.text [] 0 0,
      .insertion (.group raw 0 stop none .missing), .text [] stop stop])
    (he : parseExpr raw = .ok e) (hpresent : e.isMissing = false) (file : Option Text) :
    ∃ resolved, i.lower .callArgument .host file = .ok (.ok ⟨resolved,
      [.value .expression raw (Insertion.exprNode raw 0 (some i.locate) e)]⟩) := by
  have hgroup := Insertion.resolveGroup_of_parseExpr (some i.locate) 0 stop he
  let inner : Node := Insertion.exprNode raw 0 (some i.locate) e
  let resolved : List Segment := [.text [] 0 0,
    .insertion (.group raw 0 stop (some .expression) inner), .text [] stop stop]
  have hresolved : Segment.resolve .host (some i.locate) [.text [] 0 0,
      .insertion (.group raw 0 stop none .missing), .text [] stop stop] = pure resolved := by
    simp only [Segment.resolve, Insertion.resolve, hgroup, pure_bind]
    rfl
  have hinner : inner.isMissing = false := (Node.isMissing_mapLoc _ e).trans hpresent
  have hargs : lowerSegments resolved .interspersed = .ok [.value .expression raw inner] := by
    simp [lowerSegments, resolved, Runs.ofSegments, Runs.arguments, Runs.interspersed,
      Runs.interspersedRest, Insertion.argument, hinner, Argument.ofText?, bind, Except.bind, pure,
      Except.pure]
  have hattempt : i.attempt .callArgument .host =
      pure ⟨resolved, [.value .expression raw inner]⟩ := by
    rw [Interpolation.attempt, hsegments, Attempt.ofRejecting_ok, pure_bind, hresolved, hkind,
      pure_bind, hargs]
    rfl
  exact ⟨resolved, by rw [Interpolation.lower, hattempt]; rfl⟩

end Splice
