import Splice.Body.Lower
import Splice.Proofs.Body.Scanning
import Splice.Proofs.Grammar.Decoding
import Splice.Proofs.Parse.Trees

/-!
# What a literal lowers to

Lowering a literal with the parsers of the host grammar is rejected or yields an argument list, and
fails only over an integer that is too long. The nodes among the arguments are trees of the host
grammar whose literals stand in order and are shorter than the one that they stand in.

* `Attempt.Yields`: what an attempt yields, unless the literal is rejected.
* `Insertion.resolveGroup_parsed`: the node of a group is the tree of its text.
* `Interpolation.attempt_yields`: the arguments of a literal.
-/

namespace Splice

/-- A failure over an integer that is too long. -/
def Failure.IsLongInteger (failure : Failure) : Prop := ∃ digits, failure = .integerTooLong digits

namespace Attempt

variable {α β : Type} {P : α → Prop} {R : β → Prop}

/-- What the attempt returns has a property. It may be rejected, and it fails only over an integer
that is too long. -/
def Yields (P : α → Prop) (x : Attempt α) : Prop :=
  match x.run with
  | .ok (.ok a) => P a
  | .ok (.error _) => True
  | .error failure => failure.IsLongInteger

theorem Yields.pure {a : α} (h : P a) : Yields P (Pure.pure a : Attempt α) := h

theorem Yields.bind {x : Attempt α} {f : α → Attempt β} (hx : x.Yields P)
    (hf : ∀ a, P a → (f a).Yields R) : (x >>= f).Yields R := by
  unfold Yields at hx
  simp only [Yields, ExceptT.run_bind]
  cases hrun : x.run with
  | error failure => rw [hrun] at hx; exact hx
  | ok result =>
    cases result with
    | error => trivial
    | ok a => rw [hrun] at hx; exact hf a hx

theorem Yields.imp {P' : α → Prop} {x : Attempt α} (h : x.Yields P) (hP : ∀ a, P a → P' a) :
    x.Yields P' := by
  unfold Yields at *
  split <;> simp_all

theorem Yields.of_run {x : Attempt α} (h : x.Yields P) {a : α} (ha : x.run = .ok (.ok a)) :
    P a := by
  rw [Yields, ha] at h
  exact h

theorem Yields.ofRejecting {x : Except Rejection α} (h : ∀ a, x = .ok a → P a) :
    (Attempt.ofRejecting x).Yields P := by
  cases x with
  | error => trivial
  | ok a => exact h a rfl

theorem Yields.reject (r : Rejection) : (Attempt.reject r).Yields P := trivial

theorem Yields.ofFailing {x : Except Failure α} (h : ∀ a, x = .ok a → P a)
    (hfail : ∀ failure, x = .error failure → failure.IsLongInteger) :
    (Attempt.ofFailing x).Yields P := by
  cases x with
  | error failure => exact hfail failure rfl
  | ok a => exact h a rfl

end Attempt

/-! ## Resolving -/

/-- What may come out of a literal: a name, an expression, or a type in the place of an argument,
whose literals have a property. -/
inductive IsInserted (Q : Interpolation → Prop) : Node → Prop
  | name (loc : Loc) (ident : Text) : IsInserted Q (.name loc ident)
  | expr {e : Node} (h : HasSort Q .expr e) : IsInserted Q e
  | type (loc : Loc) {t : Node} (h : HasSort Q (.type false) t) : IsInserted Q (.typeArg loc t)

theorem IsInserted.mono {Q Q' : Interpolation → Prop} {n : Node} (hQ : ∀ i, Q i → Q' i)
    (h : IsInserted Q n) : IsInserted Q' n := by
  cases h with
  | name loc ident => exact .name loc ident
  | expr h => exact .expr (h.mono hQ)
  | type loc h => exact .type loc (h.mono hQ)

/-- An insertion whose argument is its node, which has a property. -/
def Insertion.Resolved (P : Node → Prop) (i : Insertion) : Prop :=
  ∃ role source, i.argument = .ok (.value role source i.node) ∧ P i.node

namespace Interpolation

/-- An interpolated literal in a group of another one stands in order and is shorter. -/
def Within (outer inner : Interpolation) : Prop :=
  inner.Ordered ∧ inner.body.chars.length < outer.body.chars.length

/-- What may come out of a literal, which has a character at least. -/
def Inserts (i : Interpolation) (n : Node) : Prop :=
  0 < i.body.chars.length ∧ IsInserted i.Within n

end Interpolation

section Resolve

variable {i : Interpolation} {raw : Text}

theorem FragmentParse.yields_ofResult {x : Except ParseError Node} :
    (Attempt.ofFailing (ofResult raw x)).Yields fun p =>
      p.covers raw = true → x = .ok p.node := by
  refine .ofFailing ?_ ?_
  · intro p hp hcovers
    cases x with
    | ok node =>
      cases hp
      rfl
    | error e =>
      cases e with
      | shape e =>
        cases hp
        cases hcovers
      | literal fault =>
        simp only [ofResult] at hp
        cases hreport : fault.report with
        | error => rw [hreport] at hp; cases hp
        | ok report =>
          rw [hreport] at hp
          cases hp
          cases hcovers
  · intro failure hfail
    cases x with
    | ok node => cases hfail
    | error e =>
      cases e with
      | shape e => cases hfail
      | literal fault =>
        cases fault with
        | tooManyDigits count =>
          cases hfail
          exact ⟨count, rfl⟩
        | escape => cases hfail
        | notOneCharacter => cases hfail

/-- The group is a type or an expression, and its node is the tree of its text at its place. -/
inductive Insertion.ParsedAs (raw : Text) (start stop : Nat) (locate : Option Locate) :
    Insertion → Prop
  | type {t : Node} (h : parseType raw = .ok t) : ParsedAs raw start stop locate
    (.group raw start stop (some .type) (typeNode raw start locate t))
  | expr {e : Node} (h : parseExpr raw = .ok e) : ParsedAs raw start stop locate
    (.group raw start stop (some .expression) (exprNode raw start locate e))

theorem Insertion.resolveGroup_parsed (locate : Option Locate) (start stop : Nat) :
    (resolveGroup .host locate raw start stop).Yields (ParsedAs raw start stop locate) := by
  refine Attempt.Yields.bind FragmentParse.yields_ofResult fun asType htype => ?_
  refine Attempt.Yields.bind FragmentParse.yields_ofResult fun asExpr hexpr => ?_
  split
  next hcovers =>
    rw [Bool.and_eq_true] at hcovers
    exact .pure (.type (htype hcovers.1))
  next =>
    split
    next hcovers => exact .pure (.expr (hexpr hcovers))
    next => exact .reject _

theorem FragmentParse.covers_ofResult {raw : Text} {x : Except ParseError Node}
    (h : ∀ fault, x ≠ .error (.literal fault)) :
    ∃ p, ofResult raw x = .ok p ∧ p.covers raw = x.isOk ∧ ∀ n, x = .ok n → p.node = n := by
  cases x with
  | ok n =>
    refine ⟨_, rfl, ?_, fun _ hn => by cases hn; rfl⟩
    simp [covers, ok, rest, Text.isBlankText, Except.isOk, Except.toBool]
  | error e =>
    cases e with
    | shape e =>
      refine ⟨_, rfl, rfl, ?_⟩
      rintro n ⟨⟩
    | literal fault => exact absurd rfl (h fault)

/-- A text with a tree lacks no value, so neither parser fails on it. -/
theorem Insertion.exists_resolveGroup_eq (locate : Option Locate) (start stop : Nat)
    (h : (∃ e, parseExpr raw = .ok e) ∨ ∃ t, parseType raw = .ok t) :
    ∃ asType asExpr : FragmentParse, (∀ t, parseType raw = .ok t → asType.node = t) ∧
      (∀ e, parseExpr raw = .ok e → asExpr.node = e) ∧
      resolveGroup .host locate raw start stop =
        if (parseType raw).isOk && !(parseExpr raw).isOk then
          pure (.group raw start stop (some .type) (typeNode raw start locate asType.node))
        else if (parseExpr raw).isOk then
          pure (.group raw start stop (some .expression) (exprNode raw start locate asExpr.node))
        else Attempt.reject
          { cause := .neither raw, start := some start, stop := some stop,
            notes := notes raw asType asExpr } := by
  have hvalue (goal : Goal) (fault : LiteralFault) : parse goal raw ≠ .error (.literal fault) := by
    obtain ⟨e, he⟩ | ⟨t, ht⟩ := h
    · exact @parse_ne_literal_of_ok .expr goal raw e he fault
    · exact @parse_ne_literal_of_ok .type goal raw t ht fault
  obtain ⟨asType, htype, hcoversType, hnodeType⟩ :=
    @FragmentParse.covers_ofResult raw (parseType raw) (hvalue .type)
  obtain ⟨asExpr, hexpr, hcoversExpr, hnodeExpr⟩ :=
    @FragmentParse.covers_ofResult raw (parseExpr raw) (hvalue .expr)
  refine ⟨asType, asExpr, hnodeType, hnodeExpr, ?_⟩
  rw [← hcoversType, ← hcoversExpr]
  simp only [resolveGroup, FragmentParsers.host, htype, hexpr]
  rfl

/-- A text that could be either is an expression. -/
theorem Insertion.resolveGroup_of_parseExpr (locate : Option Locate) (start stop : Nat) {e : Node}
    (he : parseExpr raw = .ok e) : resolveGroup .host locate raw start stop =
      pure (.group raw start stop (some .expression) (exprNode raw start locate e)) := by
  obtain ⟨_, _, -, hnode, hresolve⟩ := exists_resolveGroup_eq locate start stop (.inl ⟨e, he⟩)
  rw [hresolve, hnode e he, he]
  simp [Except.isOk, Except.toBool]

theorem Insertion.resolveGroup_of_parseType (locate : Option Locate) (start stop : Nat) {t : Node}
    (ht : parseType raw = .ok t) {failure : ParseError} (he : parseExpr raw = .error failure) :
    resolveGroup .host locate raw start stop =
      pure (.group raw start stop (some .type) (typeNode raw start locate t)) := by
  obtain ⟨_, _, hnode, -, hresolve⟩ := exists_resolveGroup_eq locate start stop (.inr ⟨t, ht⟩)
  rw [hresolve, hnode t ht, ht, he]
  simp [Except.isOk, Except.toBool]

/-- The node of a group has the sort of its role, and its literals stand in order. -/
theorem Insertion.resolveGroup_yields (hi : i.Ordered) (hpos : 0 < i.body.chars.length)
    (hraw : raw.length ≤ i.body.chars.length) (start stop : Nat) :
    (resolveGroup .host (some i.locate) raw start stop).Yields
      fun ins => ins.Resolved i.Inserts := by
  have hplace (inner : Interpolation) (h : inner.StandsIn raw) :
      i.Within (inner.mapLoc (place raw start i.locate)) := by
    refine ⟨hi.place h.1 start, ?_⟩
    have := h.2
    simp only [Interpolation.mapLoc, PlacedText.map, List.length_map]
    omega
  refine (resolveGroup_parsed (some i.locate) start stop).imp fun ins hins => ?_
  cases hins with
  | type h => exact ⟨_, _, rfl, hpos, .type _ ((hasSort_of_parseType h).map hplace)⟩
  | expr h =>
    have hsort := (hasSort_of_parseExpr h).map hplace
    refine ⟨.expression, raw, ?_, hpos, .expr hsort⟩
    exact if_neg (by rw [exprNode, hsort.not_missing]; decide)

/-- Every insertion gets an argument. -/
theorem Segment.resolve_yields (hi : i.Ordered) {found : List Segment}
    (hpos : ∀ ins, .insertion ins ∈ found → 0 < i.body.chars.length)
    (hraw : ∀ raw first stop role node, .insertion (.group raw first stop role node) ∈ found →
      raw.length ≤ i.body.chars.length) :
    (resolve .host (some i.locate) found).Yields fun segments =>
      ∀ ins, .insertion ins ∈ segments → ins.Resolved i.Inserts := by
  induction found with
  | nil => exact .pure (by simp)
  | cons segment rest ih =>
    have ih := ih (fun _ h => hpos _ (List.mem_cons_of_mem _ h))
      fun _ _ _ _ _ h => hraw _ _ _ _ _ (List.mem_cons_of_mem _ h)
    cases segment with
    | insertion ins =>
      have hchars := hpos ins List.mem_cons_self
      have hins : (ins.resolve .host (some i.locate)).Yields fun ins => ins.Resolved i.Inserts := by
        cases ins with
        | name ident start stop node => exact .pure ⟨_, _, rfl, hchars, .name _ _⟩
        | group raw start stop role node =>
          have hraw := hraw _ _ _ _ _ List.mem_cons_self
          exact Insertion.resolveGroup_yields hi hchars hraw start stop
      refine hins.bind fun ins hins => ih.bind fun later hlater => .pure fun ins' hmem => ?_
      rcases List.mem_cons.1 hmem with heq | hmem
      · cases heq
        exact hins
      · exact hlater ins' hmem
    | text =>
      refine ih.bind fun later hlater => .pure fun ins' hmem => ?_
      rcases List.mem_cons.1 hmem with heq | hmem
      · cases heq
      · exact hlater ins' hmem
    | dollar =>
      refine ih.bind fun later hlater => .pure fun ins' hmem => ?_
      rcases List.mem_cons.1 hmem with heq | hmem
      · cases heq
      · exact hlater ins' hmem

end Resolve

/-! ## Argument lists -/

/-- The values in an argument list have a property. -/
def AllValues (P : Node → Prop) (args : List Argument) : Prop :=
  ∀ role source node, .value role source node ∈ args → P node

section Arguments

variable {P : Node → Prop}

theorem allValues_ofText? (P : Node → Prop) (t : Text) : AllValues P (Argument.ofText? t) := by
  intro role source node hmem
  unfold Argument.ofText? at hmem
  split at hmem <;> simp at hmem

theorem AllValues.append {args args' : List Argument} (h : AllValues P args)
    (h' : AllValues P args') : AllValues P (args ++ args') := by
  intro role source node hmem
  rcases List.mem_append.1 hmem with hmem | hmem
  · exact h _ _ _ hmem
  · exact h' _ _ _ hmem

theorem AllValues.mono {Q : Node → Prop} {args : List Argument} (h : AllValues P args)
    (hP : ∀ node, P node → Q node) : AllValues Q args :=
  fun role source node hmem => hP node (h role source node hmem)

theorem Runs.mem_insertions {segments : List Segment} {ins : Insertion}
    (h : ins ∈ (ofSegments segments).insertions) : .insertion ins ∈ segments := by
  induction segments with
  | nil => cases h
  | cons segment rest ih =>
    cases segment with
    | insertion ins' =>
      rcases List.mem_cons.1 h with rfl | h
      · exact List.mem_cons_self
      · exact List.mem_cons_of_mem _ (ih h)
    | text => exact List.mem_cons_of_mem _ (ih h)
    | dollar => exact List.mem_cons_of_mem _ (ih h)

theorem Runs.interspersedRest_eq_ok {rest : List (Insertion × Text)}
    (h : ∀ p ∈ rest, p.1.Resolved P) : ∃ args, interspersedRest rest = .ok args := by
  induction rest with
  | nil => exact ⟨[], rfl⟩
  | cons p rest ih =>
    obtain ⟨ins, t⟩ := p
    obtain ⟨hfirst, hlater⟩ := List.forall_mem_cons.1 h
    obtain ⟨role, source, hargument, -⟩ := hfirst
    obtain ⟨args, hargs⟩ := ih hlater
    exact ⟨_, by rw [interspersedRest, hargument, hargs]; rfl⟩

theorem Insertion.mapM_argument_eq_ok {insertions : List Insertion}
    (h : ∀ ins ∈ insertions, ins.Resolved P) : ∃ args, insertions.mapM argument = .ok args := by
  induction insertions with
  | nil => exact ⟨[], rfl⟩
  | cons ins rest ih =>
    obtain ⟨hfirst, hlater⟩ := List.forall_mem_cons.1 h
    obtain ⟨role, source, hargument, -⟩ := hfirst
    obtain ⟨args, hargs⟩ := ih hlater
    exact ⟨_, by rw [List.mapM_cons, hargument, hargs]; rfl⟩

theorem Insertion.allValues_argument {ins : Insertion} {argument : Argument}
    (h : ins.argument = .ok argument) : AllValues (ins.node = ·) [argument] := by
  intro role source node hmem
  cases List.mem_singleton.1 hmem
  unfold Insertion.argument at h
  split at h
  · split at h
    · cases h
    · cases h
      rfl
  · split at h
    · split at h
      · cases h
      · cases h
        rfl
    · cases h

theorem Runs.allValues_interspersedRest {rest : List (Insertion × Text)} {args : List Argument}
    (h : interspersedRest rest = .ok args) :
    AllValues (fun node => ∃ p ∈ rest, p.1.node = node) args := by
  induction rest generalizing args with
  | nil =>
    cases h
    nofun
  | cons p rest ih =>
    obtain ⟨ins, t⟩ := p
    rw [interspersedRest] at h
    cases hfirst : ins.argument with
    | error => rw [hfirst] at h; cases h
    | ok argument =>
      cases hlater : interspersedRest rest with
      | error => rw [hfirst, hlater] at h; cases h
      | ok later =>
        rw [hfirst, hlater] at h
        cases h
        have hvalue := (Insertion.allValues_argument hfirst).mono
          (Q := fun node => ∃ p ∈ (ins, t) :: rest, p.1.node = node)
          fun _ hnode => ⟨(ins, t), List.mem_cons_self, hnode⟩
        refine (hvalue.append (allValues_ofText? _ t)).append ((ih hlater).mono ?_)
        rintro _ ⟨p, hp, hnode⟩
        exact ⟨p, List.mem_cons_of_mem _ hp, hnode⟩

theorem Insertion.allValues_mapM_argument {insertions : List Insertion} {args : List Argument}
    (h : insertions.mapM argument = .ok args) :
    AllValues (fun node => ∃ ins ∈ insertions, ins.node = node) args := by
  induction insertions generalizing args with
  | nil =>
    cases h
    nofun
  | cons ins rest ih =>
    rw [List.mapM_cons] at h
    cases hfirst : ins.argument with
    | error => rw [hfirst] at h; cases h
    | ok argument =>
      cases hlater : rest.mapM Insertion.argument with
      | error => rw [hfirst, hlater] at h; cases h
      | ok later =>
        rw [hfirst, hlater] at h
        cases h
        have hvalue := (allValues_argument hfirst).mono
          (Q := fun node => ∃ i ∈ ins :: rest, i.node = node)
          fun _ hnode => ⟨ins, List.mem_cons_self, hnode⟩
        refine hvalue.append ((ih hlater).mono ?_)
        rintro _ ⟨ins', hmem, hnode⟩
        exact ⟨ins', List.mem_cons_of_mem _ hmem, hnode⟩

/-- The values among the arguments are the nodes of the segments. -/
theorem allValues_lowerSegments {segments : List Segment} {kind : InterpolationKind}
    {args : List Argument} (h : lowerSegments segments kind = .ok args) :
    AllValues (fun node => ∃ ins, .insertion ins ∈ segments ∧ ins.node = node) args := by
  cases kind with
  | interspersed =>
    cases hrest : Runs.interspersedRest (Runs.ofSegments segments).rest with
    | error => rw [lowerSegments, Runs.arguments, Runs.interspersed, hrest] at h; cases h
    | ok later =>
      rw [lowerSegments, Runs.arguments, Runs.interspersed, hrest] at h
      cases h
      refine (allValues_ofText? _ _).append ((Runs.allValues_interspersedRest hrest).mono ?_)
      rintro _ ⟨p, hp, hnode⟩
      exact ⟨p.1, Runs.mem_insertions (List.mem_map_of_mem hp), hnode⟩
  | formatted =>
    cases hvalues : (Runs.ofSegments segments).insertions.mapM Insertion.argument with
    | error => rw [lowerSegments, Runs.arguments, Runs.formatted, hvalues] at h; cases h
    | ok values =>
      rw [lowerSegments, Runs.arguments, Runs.formatted, hvalues] at h
      cases h
      intro role source node hmem
      rcases List.mem_cons.1 hmem with heq | hmem
      · cases heq
      · obtain ⟨ins, hins, hnode⟩ := Insertion.allValues_mapM_argument hvalues _ _ _ hmem
        exact ⟨ins, Runs.mem_insertions hins, hnode⟩

/-- Resolved segments lower to an argument list. -/
theorem lowerSegments_eq_ok {segments : List Segment}
    (h : ∀ ins, .insertion ins ∈ segments → ins.Resolved P) (kind : InterpolationKind) :
    ∃ args, lowerSegments segments kind = .ok args ∧ AllValues P args := by
  have hins : ∀ ins ∈ (Runs.ofSegments segments).insertions, ins.Resolved P :=
    fun ins hmem => h ins (Runs.mem_insertions hmem)
  obtain ⟨args, hargs⟩ : ∃ args, lowerSegments segments kind = .ok args := by
    cases kind with
    | interspersed =>
      have hrest : ∀ p ∈ (Runs.ofSegments segments).rest, p.1.Resolved P :=
        fun p hp => hins _ (List.mem_map_of_mem hp)
      obtain ⟨args, hargs⟩ := Runs.interspersedRest_eq_ok hrest
      exact ⟨_, by rw [lowerSegments, Runs.arguments, Runs.interspersed, hargs]; rfl⟩
    | formatted =>
      obtain ⟨args, hargs⟩ := Insertion.mapM_argument_eq_ok hins
      exact ⟨_, by rw [lowerSegments, Runs.arguments, Runs.formatted, hargs]; rfl⟩
  refine ⟨args, hargs, (allValues_lowerSegments hargs).mono ?_⟩
  rintro _ ⟨ins, hmem, rfl⟩
  obtain ⟨-, -, -, hnode⟩ := h ins hmem
  exact hnode

end Arguments

/-! ## The whole way -/

namespace Interpolation

variable {i : Interpolation}

/-- A literal in a context that admits it yields arguments, unless it is rejected. -/
theorem attempt_yields (hi : i.Ordered) (context : Context) :
    (i.attempt context .host).Yields fun lowering =>
      context.admits i.kind = true ∧ AllValues i.Inserts lowering.args := by
  have hlength : i.body.text.length = i.body.chars.length := List.length_map _
  -- The steps in turn: the segments, what they resolve to, the context, and the arguments.
  refine Attempt.Yields.bind (P := fun found => segments i.body.text = .ok found)
    (.ofRejecting fun _ h => h) fun found hfound => ?_
  refine Attempt.Yields.bind (Segment.resolve_yields hi ?_ ?_) fun resolved hresolved => ?_
  · intro ins hmem
    rw [← hlength, List.length_pos_iff]
    intro hnil
    rw [hnil] at hfound
    cases hfound
    simp at hmem
  · intro raw first stop role node hmem
    obtain ⟨before, after, htext, -⟩ := insertion_of_segments hfound hmem
    have := congrArg List.length htext
    simp only [Insertion.source, List.length_append, List.length_cons] at this
    omega
  refine Attempt.Yields.bind (P := fun _ => context.admits i.kind = true) (.ofRejecting ?_)
    fun _ hadmits => ?_
  · intro _ h
    unfold Context.check at h
    split at h
    next hadmits => exact hadmits
    next => cases h
  obtain ⟨args, hargs, hvalues⟩ := lowerSegments_eq_ok hresolved i.kind
  rw [hargs]
  exact .pure ⟨hadmits, hvalues⟩

/-- The place that a diagnostic starts at is in a literal. -/
def Holds (i : Interpolation) (d : Diagnostic) : Prop :=
  ∃ loc : Loc, d.span.line = some loc.line ∧ d.span.column = some loc.column ∧
    i.loc ≤ loc ∧ loc ≤ i.body.stop

/-- Whatever a literal is rejected for, the diagnostic starts in it. -/
theorem Ordered.holds_diagnostic (hi : i.Ordered) (file : Option Text) (r : Rejection) :
    i.Holds (i.diagnostic file r) := by
  cases hstart : r.start with
  | none =>
    obtain ⟨hfirst, hstop⟩ := hi.locate_within 0
    refine ⟨i.loc, ?_, ?_, Loc.le_refl _, Loc.le_trans hfirst hstop⟩
    · simp only [diagnostic, Diagnostic.ofFault, span, hstart, Span.between]
    · simp only [diagnostic, Diagnostic.ofFault, span, hstart, Span.between]
  | some first =>
    obtain ⟨hfirst, hstop⟩ := hi.locate_within first
    refine ⟨i.body.locate first, ?_, ?_, hfirst, hstop⟩
    · simp only [diagnostic, Diagnostic.ofFault, span, hstart, Span.between, locate]
    · simp only [diagnostic, Diagnostic.ofFault, span, hstart, Span.between, locate]

/-- A literal is lowered where the context admits it, or reported at a place in it. -/
theorem lower_spec (hi : i.Ordered) (context : Context) (file : Option Text) :
    match i.lower context .host file with
    | .ok (.ok lowering) => context.admits i.kind = true ∧ AllValues i.Inserts lowering.args
    | .ok (.error d) => i.Holds d
    | .error failure => failure.IsLongInteger := by
  have hyields := i.attempt_yields hi context
  unfold Attempt.Yields at hyields
  unfold lower
  cases hrun : (i.attempt context .host).run with
  | error failure => rw [hrun] at hyields; exact hyields
  | ok result =>
    cases result with
    | error r => exact hi.holds_diagnostic file r
    | ok lowering => rw [hrun] at hyields; exact hyields

end Interpolation

end Splice
