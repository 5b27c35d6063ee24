import Splice.Proofs.Body.Moved

/-!
# Bodies that lower alike

Two bodies lower to the same arguments, up to places, if they have the same texts and dollar signs
and, between these, insertions that get the same arguments. Where the segments stand in the two
bodies does not matter.

* `Attempt.Alike`: two attempts of which both return or neither does.
* `Segment.Alike`: two segments that differ in their insertions at most.
* `Segment.scan_alike`: the same text at two places of bodies.
* `Segment.resolve_alike`, `lowerSegments_congr`: what becomes of rows of such segments.
* `Interpolation.lower_alike`: two literals.
-/

namespace Splice

namespace Attempt

variable {α β γ δ : Type} {R : α → β → Prop} {S : γ → δ → Prop}

/-- Both attempts return, and what they return is related, or neither of them returns. -/
structure Alike (R : α → β → Prop) (x : Attempt α) (y : Attempt β) : Prop where
  forth : ∀ a, x.run = .ok (.ok a) → ∃ b, y.run = .ok (.ok b) ∧ R a b
  back : ∀ b, y.run = .ok (.ok b) → ∃ a, x.run = .ok (.ok a) ∧ R a b

theorem Alike.refl (x : Attempt α) : Alike Eq x x :=
  ⟨fun a ha => ⟨a, ha, rfl⟩, fun a ha => ⟨a, ha, rfl⟩⟩

theorem Alike.pure {a : α} {b : β} (h : R a b) :
    Alike R (Pure.pure a : Attempt α) (Pure.pure b : Attempt β) :=
  ⟨by rintro _ ⟨⟩; exact ⟨b, rfl, h⟩, by rintro _ ⟨⟩; exact ⟨a, rfl, h⟩⟩

theorem Alike.reject (r r' : Rejection) : Alike R (Attempt.reject r) (Attempt.reject r') :=
  ⟨nofun, nofun⟩

theorem Alike.bind {x : Attempt α} {y : Attempt β} {f : α → Attempt γ} {g : β → Attempt δ}
    (h : Alike R x y) (hfg : ∀ a b, R a b → Alike S (f a) (g b)) : Alike S (x >>= f) (y >>= g) := by
  constructor
  · intro c hc
    obtain ⟨a, ha, hc⟩ := run_bind_eq_ok.1 hc
    obtain ⟨b, hb, hab⟩ := h.forth a ha
    obtain ⟨d, hd, hcd⟩ := (hfg a b hab).forth c hc
    exact ⟨d, run_bind_eq_ok.2 ⟨b, hb, hd⟩, hcd⟩
  · intro d hd
    obtain ⟨b, hb, hd⟩ := run_bind_eq_ok.1 hd
    obtain ⟨a, ha, hab⟩ := h.back b hb
    obtain ⟨c, hc, hcd⟩ := (hfg a b hab).back d hd
    exact ⟨c, run_bind_eq_ok.2 ⟨a, ha, hc⟩, hcd⟩

theorem Alike.map {x : Attempt α} {y : Attempt β} {f : α → γ} {g : β → δ} (h : Alike R x y)
    (hfg : ∀ a b, R a b → S (f a) (g b)) : Alike S (f <$> x) (g <$> y) := by
  rw [map_eq_pure_bind, map_eq_pure_bind]
  exact h.bind fun a b hab => .pure (hfg a b hab)

theorem ofRejecting_map (f : α → β) (x : Except Rejection α) :
    Attempt.ofRejecting (x.map f) = f <$> Attempt.ofRejecting x := by
  cases x <;> rfl

end Attempt

/-! ## Segments -/

/-- The place of every character, where places do not matter. -/
def nowhere : Locate := fun _ => .start

namespace Insertion

/-- Both insertions have the same argument, or none. -/
def SameArgument (ins ins' : Insertion) : Prop := ins.argument = ins'.argument

/-- Both insertions get the same argument from some parsers, or neither of them gets a node. -/
def ResolvesAlike (parsers : FragmentParsers) (ins ins' : Insertion) : Prop :=
  (ins.resolve parsers (some nowhere)).Alike SameArgument (ins'.resolve parsers (some nowhere))

variable {parsers : FragmentParsers}

theorem ResolvesAlike.name (ident : Text) (start stop start' stop' : Nat) (node node' : Node) :
    ResolvesAlike parsers (.name ident start stop node) (.name ident start' stop' node') :=
  .pure rfl

theorem ResolvesAlike.group (raw : Text) (start stop start' stop' : Nat) (role role' : Option Role)
    (node node' : Node) :
    ResolvesAlike parsers (.group raw start stop role node)
      (.group raw start' stop' role' node') := by
  -- No place of the node depends on where the group starts.
  have hplace : place raw start nowhere = place raw start' nowhere := rfl
  refine (Attempt.Alike.refl _).bind fun asType _ htype => ?_
  refine (Attempt.Alike.refl _).bind fun asExpr _ hexpr => ?_
  subst htype hexpr
  split
  · exact .pure rfl
  · split
    · refine .pure ?_
      rw [exprNode, exprNode, hplace]
      rfl
    · exact .reject _ _

theorem ResolvesAlike.refl (ins : Insertion) : ins.ResolvesAlike parsers ins := by
  cases ins with
  | name => exact .name ..
  | group => exact .group ..

end Insertion

namespace Segment

/-- Segments of the same sort. Texts are the same, and insertions are related. -/
inductive Alike (R : Insertion → Insertion → Prop) : Segment → Segment → Prop
  | text {t : Text} {start stop start' stop' : Nat} :
    Alike R (.text t start stop) (.text t start' stop')
  | dollar {start stop start' stop' : Nat} : Alike R (.dollar start stop) (.dollar start' stop')
  | insertion {ins ins' : Insertion} (h : R ins ins') : Alike R (.insertion ins) (.insertion ins')

variable {parsers : FragmentParsers}

theorem Alike.refl {R : Insertion → Insertion → Prop} (hR : ∀ ins, R ins ins) (segment : Segment) :
    segment.Alike R segment := by
  cases segment with
  | text => exact .text
  | dollar => exact .dollar
  | insertion ins => exact .insertion (hR ins)

theorem ofDollar_alike (parsers : FragmentParsers) (dollar dollar' : Nat) (t : Text) :
    (Attempt.ofRejecting (ofDollar dollar t)).Alike
      (fun p q => p.1.Alike (Insertion.ResolvesAlike parsers) q.1 ∧ p.2 = q.2)
      (Attempt.ofRejecting (ofDollar dollar' t)) := by
  cases t with
  | nil => exact .reject _ _
  | cons c rest =>
    rw [ofDollar, ofDollar]
    split
    · exact .pure ⟨.dollar, rfl⟩
    split
    · exact .pure ⟨.insertion (.name ..), rfl⟩
    split
    · cases Closing.distance rest 0 0 with
      | ok n => exact .pure ⟨.insertion (.group ..), rfl⟩
      | error what => exact .reject _ _
    · exact .reject _ _

/-- An escape, and what stands behind it. -/
theorem ofRejecting_scan_dollar (rest : Text) (offset start : Nat) (run : Text) :
    Attempt.ofRejecting (scan ('$' :: rest) 0 offset start run) =
      Attempt.ofRejecting (ofDollar offset rest) >>= fun (segment, length) =>
        (fun later => .text run.reverse start offset :: segment :: later) <$>
          Attempt.ofRejecting (scan rest (length - 1) (offset + 1) (offset + length) []) := by
  rw [scan, if_pos rfl]
  cases ofDollar offset rest with
  | error r => rfl
  | ok result => exact Attempt.ofRejecting_map ..

/-- The same text is read alike wherever it stands. -/
theorem scan_alike (parsers : FragmentParsers) (t : Text)
    (pending offset start offset' start' : Nat) (run : Text) :
    (Attempt.ofRejecting (scan t pending offset start run)).Alike
      (List.Forall₂ (Alike (Insertion.ResolvesAlike parsers)))
      (Attempt.ofRejecting (scan t pending offset' start' run)) := by
  induction t generalizing pending offset start offset' start' run with
  | nil => exact .pure (.cons .text .nil)
  | cons c rest ih =>
    cases pending with
    | succ pending => exact ih ..
    | zero =>
      by_cases hc : c = '$'
      · subst hc
        rw [ofRejecting_scan_dollar, ofRejecting_scan_dollar]
        refine (ofDollar_alike parsers offset offset' rest).bind ?_
        rintro ⟨segment, length⟩ ⟨segment', _⟩ ⟨hsegment, rfl⟩
        exact (ih ..).map fun _ _ hlater => .cons .text (.cons hsegment hlater)
      · rw [scan, scan, if_neg hc, if_neg hc]
        exact ih ..

theorem resolve_alike {found found' : List Segment}
    (h : List.Forall₂ (Alike (Insertion.ResolvesAlike parsers)) found found') :
    (resolve parsers (some nowhere) found).Alike (List.Forall₂ (Alike Insertion.SameArgument))
      (resolve parsers (some nowhere) found') := by
  induction h with
  | nil => exact .pure .nil
  | cons hsegment _ ih =>
    cases hsegment with
    | text => exact ih.bind fun _ _ hlater => .pure (.cons .text hlater)
    | dollar => exact ih.bind fun _ _ hlater => .pure (.cons .dollar hlater)
    | insertion hins =>
      refine hins.bind fun _ _ hins => ih.bind fun _ _ hlater => ?_
      exact .pure (.cons (.insertion hins) hlater)

end Segment

/-! ## Argument lists -/

namespace Runs

theorem ofSegments_alike {segments segments' : List Segment}
    (h : List.Forall₂ (Segment.Alike Insertion.SameArgument) segments segments') :
    (ofSegments segments).first = (ofSegments segments').first ∧
      List.Forall₂ (fun p q => p.1.SameArgument q.1 ∧ p.2 = q.2) (ofSegments segments).rest
        (ofSegments segments').rest := by
  induction h with
  | nil => exact ⟨rfl, .nil⟩
  | cons hsegment _ ih =>
    obtain ⟨hfirst, hrest⟩ := ih
    cases hsegment with
    | @text t => exact ⟨congrArg (t ++ ·) hfirst, hrest⟩
    | dollar => exact ⟨congrArg (CodePoint.scalar '$' :: ·) hfirst, hrest⟩
    | insertion hins => exact ⟨rfl, .cons ⟨hins, hfirst⟩ hrest⟩

variable {rest rest' : List (Insertion × Text)}

theorem interspersedRest_congr
    (h : List.Forall₂ (fun p q => p.1.SameArgument q.1 ∧ p.2 = q.2) rest rest') :
    interspersedRest rest = interspersedRest rest' := by
  induction h with
  | nil => rfl
  | @cons p q _ _ hpq _ ih =>
    obtain ⟨ins, t⟩ := p
    obtain ⟨ins', t'⟩ := q
    obtain ⟨hargument, rfl⟩ := hpq
    rw [interspersedRest, interspersedRest, hargument, ih]

theorem mapM_argument_congr
    (h : List.Forall₂ (fun p q => p.1.SameArgument q.1 ∧ p.2 = q.2) rest rest') :
    (rest.map (·.1)).mapM Insertion.argument = (rest'.map (·.1)).mapM Insertion.argument ∧
      rest.map (·.2) = rest'.map (·.2) := by
  induction h with
  | nil => exact ⟨rfl, rfl⟩
  | cons hpq _ ih =>
    obtain ⟨hargument, htext⟩ := hpq
    obtain ⟨harguments, htexts⟩ := ih
    simp only [List.map_cons, List.mapM_cons]
    rw [hargument, harguments, htext, htexts]
    exact ⟨rfl, rfl⟩

end Runs

theorem lowerSegments_congr {segments segments' : List Segment}
    (h : List.Forall₂ (Segment.Alike Insertion.SameArgument) segments segments')
    (kind : InterpolationKind) : lowerSegments segments kind = lowerSegments segments' kind := by
  obtain ⟨hfirst, hrest⟩ := Runs.ofSegments_alike h
  cases kind with
  | interspersed =>
    rw [lowerSegments, lowerSegments, Runs.arguments, Runs.arguments, Runs.interspersed,
      Runs.interspersed, hfirst, Runs.interspersedRest_congr hrest]
  | formatted =>
    obtain ⟨harguments, htexts⟩ := Runs.mapM_argument_congr hrest
    rw [lowerSegments, lowerSegments, Runs.arguments, Runs.arguments, Runs.formatted,
      Runs.formatted, Runs.insertions, Runs.insertions, Runs.texts, Runs.texts, hfirst, harguments,
      htexts]

/-! ## Literals -/

/-- The argument without its places. -/
def Argument.bare (a : Argument) : Argument := a.mapLoc fun _ => .start

namespace Interpolation

/-- The literal without its places. -/
def bare (i : Interpolation) : Interpolation := i.mapLoc fun _ => .start

variable {i i' : Interpolation} {context : Context}

theorem locate_bare (i : Interpolation) : i.bare.locate = nowhere := i.locate_mapLoc _

/-- A literal without its places lowers to what it lowers to with them. -/
theorem run_attempt_bare (file : Option Text) {lowering : Lowering} :
    (i.bare.attempt context .host).run = .ok (.ok lowering) ↔
      ∃ placed, i.lower context .host file = .ok (.ok placed) ∧
        placed.mapLoc (fun _ => .start) = lowering := by
  simp only [lower_eq_ok_iff_run]
  rw [bare, attempt_moved, ExceptT.run_map]
  rcases (i.attempt context .host).run with failure | r | placed
  · exact ⟨nofun, nofun⟩
  · exact ⟨nofun, nofun⟩
  · exact ⟨fun h => ⟨placed, rfl, Except.ok.inj (Except.ok.inj h)⟩,
      fun ⟨_, hrun, h⟩ => by cases hrun; rw [← h]; rfl⟩

theorem attempt_alike
    (hfound : (Attempt.ofRejecting (segments i.body.text)).Alike
      (List.Forall₂ (Segment.Alike (Insertion.ResolvesAlike .host)))
      (Attempt.ofRejecting (segments i'.body.text)))
    (hkind : i.kind = i'.kind) (context : Context) :
    (i.bare.attempt context .host).Alike (fun l l' => l.args = l'.args)
      (i'.bare.attempt context .host) := by
  rw [attempt, attempt, locate_bare, locate_bare]
  have htext (i : Interpolation) : i.bare.body.text = i.body.text := PlacedText.text_map ..
  have hkind' : i.bare.kind = i'.bare.kind := hkind
  rw [htext, htext, hkind']
  refine hfound.bind fun found found' hsegments => ?_
  refine (Segment.resolve_alike hsegments).bind fun resolved resolved' hresolved => ?_
  refine (Attempt.Alike.refl _).bind fun _ _ _ => ?_
  rw [lowerSegments_congr hresolved]
  exact (Attempt.Alike.refl _).bind fun _ _ hargs => .pure hargs

/-- Both literals lower, to the same arguments up to their places, or neither of them does. -/
structure LowerAlike (context : Context) (file : Option Text) (i i' : Interpolation) : Prop where
  lowers : (∃ l, i.lower context .host file = .ok (.ok l)) ↔
    ∃ l', i'.lower context .host file = .ok (.ok l')
  args : ∀ l l', i.lower context .host file = .ok (.ok l) →
    i'.lower context .host file = .ok (.ok l') →
    l.args.map Argument.bare = l'.args.map Argument.bare

/-- Literals whose segments are alike lower alike. -/
theorem lower_alike
    (hfound : (Attempt.ofRejecting (segments i.body.text)).Alike
      (List.Forall₂ (Segment.Alike (Insertion.ResolvesAlike .host)))
      (Attempt.ofRejecting (segments i'.body.text)))
    (hkind : i.kind = i'.kind) (file : Option Text) : LowerAlike context file i i' := by
  have halike := attempt_alike hfound hkind context
  refine ⟨⟨fun ⟨l, hl⟩ => ?_, fun ⟨l', hl'⟩ => ?_⟩, fun l l' hl hl' => ?_⟩
  · obtain ⟨_, hrun, -⟩ := halike.forth _ ((run_attempt_bare file).2 ⟨l, hl, rfl⟩)
    obtain ⟨l', hl', -⟩ := (run_attempt_bare file).1 hrun
    exact ⟨l', hl'⟩
  · obtain ⟨_, hrun, -⟩ := halike.back _ ((run_attempt_bare file).2 ⟨l', hl', rfl⟩)
    obtain ⟨l, hl, -⟩ := (run_attempt_bare file).1 hrun
    exact ⟨l, hl⟩
  · obtain ⟨_, hrun, hargs⟩ := halike.forth _ ((run_attempt_bare file).2 ⟨l, hl, rfl⟩)
    cases hrun.symm.trans ((run_attempt_bare file).2 ⟨l', hl', rfl⟩)
    exact hargs

end Interpolation

end Splice
