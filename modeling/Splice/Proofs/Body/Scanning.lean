import Splice.Body.Scan
import Splice.Proofs.Body.Balanced

/-!
# Scanning undoes joining

The segments of a body are a row of texts with an escape between any two of them. Rows that a scan
could find are well formed, and a well-formed row is found again in its source. So the scan fails
exactly on what is no source of such a row.

* `Closing.distance_stable`: the end of a group does not depend on what stands behind it.
* `isGroupText_iff_balanced`: the texts of groups.
* `Segment.EscapeAt`, `WellFormed`: escapes, and rows of segments, at an offset.
* `WellFormed.scan_sources`: a row is found in its source.
* `WellFormed.pairwise_stop_le`: the segments of a row stand one behind the other.
* `Segment.wellFormed_of_scan`: what was found is a row whose source is the text.
* `insertion_of_segments`: every insertion stands in the body where it says.
* `Segment.exists_of_scan_error`: a scan fails at a dollar sign, before which it succeeds.
* `segments_sources`: these together.
-/

namespace Splice

/-- What stands behind the parenthesis that closes a group does not matter to the search. -/
theorem Closing.distance_stable {t : Text} {n depth : Nat} (h : distance t 0 depth = .ok n) :
    ∃ raw later : Text, t = raw ++ ↑ ')' :: later ∧ raw.length = n ∧
      ∀ s : Text, distance (raw ++ ↑ ')' :: s) 0 depth = .ok n := by
  obtain ⟨raw, later, rfl, rfl, hraw⟩ := closes_of_distance h
  exact ⟨raw, later, rfl, rfl, hraw.distance_eq⟩

/-! ## Rows of segments -/

/-- The offset of the dollar sign of an insertion. -/
def Insertion.start : Insertion → Nat
  | name _ start _ _ | group _ start _ _ _ => start

/-- The offset right behind an insertion. -/
def Insertion.stop : Insertion → Nat
  | name _ _ stop _ | group _ _ stop _ _ => stop

/-- The offset at which a segment starts. -/
def Segment.start : Segment → Nat
  | text _ start _ | dollar start _ => start
  | insertion i => i.start

/-- The offset right behind a segment. -/
def Segment.stop : Segment → Nat
  | text _ _ stop | dollar _ stop => stop
  | insertion i => i.stop

/-- The segment as a scan finds it, without the node and the role of an insertion. -/
def Segment.unresolved : Segment → Segment
  | .insertion (.name ident start stop _) => .insertion (.name ident start stop .missing)
  | .insertion (.group raw start stop _ _) => .insertion (.group raw start stop none .missing)
  | segment => segment

/-- A letter or an underscore, and letters, digits and underscores behind it. -/
def IsIdentifier (t : Text) : Prop :=
  ∃ c rest, t = c :: rest ∧ isNameStart c = true ∧ ∀ d ∈ rest, isNamePart d = true

/-- The text of a group: with a parenthesis behind it, it ends before this one. -/
def IsGroupText (raw : Text) : Prop :=
  ∃ close, closeGroup (raw ++ ([')'] : Text)) 0 (-2) = .ok (raw, close)

/-- An escape that stands at an offset before a text. A name must not go on in the text. -/
inductive Segment.EscapeAt (offset : Nat) (next : Text) : Segment → Prop
  | dollar : EscapeAt offset next (.dollar offset (offset + 2))
  | name {ident : Text} {node : Node} (h : IsIdentifier ident)
    (hnext : ∀ c ∈ next.head?, isNamePart c = false) :
    EscapeAt offset next (.insertion (.name ident offset (offset + (ident.length + 1)) node))
  | group {raw : Text} {role : Option Role} {node : Node} (h : IsGroupText raw) :
    EscapeAt offset next (.insertion (.group raw offset (offset + (raw.length + 3)) role node))

/-- A row of segments from an offset on: texts without dollar signs and, between any two of them, an
escape. Each segment starts where the one before it stops. -/
inductive WellFormed : (offset : Nat) → List Segment → Prop
  | text {offset : Nat} {t : Text} (h : ↑ '$' ∉ t) :
    WellFormed offset [.text t offset (offset + t.length)]
  | escape {offset start stop : Nat} {t next : Text} {escape : Segment} {later : List Segment}
    (h : ↑ '$' ∉ t) (hescape : escape.EscapeAt (offset + t.length) next)
    (hstart : start = offset + t.length + escape.source.length)
    (hlater : WellFormed start (.text next start stop :: later)) :
    WellFormed offset
      (.text t offset (offset + t.length) :: escape :: .text next start stop :: later)

theorem isGroupText_iff {raw : Text} :
    IsGroupText raw ↔ Closing.distance (raw ++ ([')'] : Text)) 0 0 = .ok raw.length := by
  simp only [IsGroupText, closeGroup_eq_ok_iff, List.drop_zero]
  constructor
  · rintro ⟨close, n, hn, hraw, -⟩
    obtain ⟨raw', later, ht, rfl, -⟩ := Closing.distance_stable hn
    rw [ht, List.take_left] at hraw
    subst hraw
    exact hn
  · intro h
    exact ⟨raw.length, raw.length, h, List.take_left.symm, (Nat.zero_add _).symm⟩

/-- The texts of groups are the balanced ones. -/
theorem isGroupText_iff_balanced {raw : Text} : IsGroupText raw ↔ BalancedText raw := by
  rw [isGroupText_iff]
  constructor
  · intro h
    obtain ⟨raw', later, ht, hlength, hcloses⟩ := Closing.closes_of_distance h
    obtain ⟨rfl, -⟩ := List.append_inj ht hlength
    cases hcloses with
    | done h => exact h
  · intro h
    exact (Closes.done h).distance_eq []

namespace Segment

variable {l t next : Text} {offset start stop : Nat} {escape : Segment} {later : List Segment}

/-- Characters that belong to an escape found before are passed over. -/
theorem scan_pending (l t : Text) (offset start : Nat) (run : Text) :
    scan (l ++ t) l.length offset start run = scan t 0 (offset + l.length) start run := by
  induction l generalizing offset with
  | nil => rfl
  | cons c l ih =>
    rw [List.cons_append, List.length_cons, scan, ih, Nat.add_right_comm, Nat.add_assoc]

/-- An escape ends the text before it. -/
theorem scan_escape {segment : Segment} {offset : Nat}
    (h : ofDollar offset (l ++ t) = .ok (segment, l.length + 1)) (start : Nat) (run : Text) :
    scan ('$' :: (l ++ t)) 0 offset start run =
      (scan t 0 (offset + (l.length + 1)) (offset + (l.length + 1)) []).map fun found =>
        .text run.reverse start offset :: segment :: found := by
  rw [scan, if_pos rfl, h]
  simp only [Nat.add_sub_cancel]
  rw [scan_pending, Nat.add_assoc, Nat.add_comm 1]

/-- Characters that start no escape belong to the text. -/
theorem scan_plain (h : ↑ '$' ∉ l) (t : Text) (offset start : Nat) (run : Text) :
    scan (l ++ t) 0 offset start run =
      scan t 0 (offset + l.length) start (l.reverse ++ run) := by
  induction l generalizing offset run with
  | nil => rfl
  | cons c l ih =>
    obtain ⟨hc, hl⟩ := not_or.1 (fun hmem => h (List.mem_cons.2 hmem))
    rw [List.cons_append, scan, if_neg (Ne.symm hc), ih hl, List.length_cons, List.reverse_cons,
      List.append_assoc, List.singleton_append, Nat.add_right_comm, Nat.add_assoc]

theorem sources_cons (segment : Segment) (later : List Segment) :
    sources (segment :: later) = segment.source ++ sources later :=
  List.flatMap_cons

theorem EscapeAt.mono (h : escape.EscapeAt offset next)
    (ht : ∀ c ∈ t.head?, isNamePart c = true → next.head? = some c) : escape.EscapeAt offset t := by
  cases h with
  | dollar => exact .dollar
  | group h => exact .group h
  | name h hnext =>
    refine .name h fun c hc => ?_
    cases hpart : isNamePart c with
    | false => rfl
    | true => rw [← hpart, hnext c (ht c hc hpart)]

/-- An escape is found in its source. -/
theorem EscapeAt.ofDollar (h : escape.EscapeAt offset t) :
    ∃ l, escape.source = ↑ '$' :: l ∧
      ofDollar offset (l ++ t) = .ok (escape.unresolved, l.length + 1) := by
  cases h with
  | dollar => exact ⟨['$'], rfl, rfl⟩
  | @name ident node h hnext =>
    obtain ⟨c, r, rfl, hc, hr⟩ := h
    have hdollar : c ≠ '$' := by
      rintro rfl
      exact absurd hc (by decide)
    have htake : (r ++ t).takeWhile isNamePart = r := by
      rw [← Lexeme.take_lengthWhile, Lexeme.lengthWhile_append hr hnext, List.take_left]
    refine ⟨c :: r, rfl, ?_⟩
    rw [List.cons_append, Segment.ofDollar, if_neg hdollar, if_pos hc, htake]
    simp only [unresolved, Nat.add_comm 1]
  | @group raw role node h =>
    obtain ⟨raw', later, hraw, hlength, hstable⟩ :=
      Closing.distance_stable (isGroupText_iff.1 h)
    obtain ⟨rfl, -⟩ := List.append_inj hraw hlength.symm
    have hbracket : ¬ isNameStart '(' = true := by decide
    refine ⟨↑ '(' :: raw ++ ([')'] : Text), rfl, ?_⟩
    rw [List.append_assoc, List.cons_append, List.singleton_append, Segment.ofDollar,
      if_neg (by decide), if_neg hbracket, if_pos rfl, hstable]
    simp only [unresolved, List.take_left, List.length_append, List.length_cons, List.length_nil,
      Nat.add_assoc]

/-- An escape that was found stands in the text. -/
theorem escapeAt_of_ofDollar {segment : Segment} {n : Nat}
    (h : ofDollar offset t = .ok (segment, n)) :
    ∃ l later : Text, t = l ++ later ∧ n = l.length + 1 ∧ segment.source = ↑ '$' :: l ∧
      segment.unresolved = segment ∧ segment.EscapeAt offset later := by
  cases t with
  | nil => cases h
  | cons c t =>
    rw [Segment.ofDollar] at h
    by_cases hdollar : c = '$'
    · subst hdollar
      rw [if_pos rfl] at h
      cases h
      exact ⟨['$'], t, rfl, rfl, rfl, rfl, .dollar⟩
    rw [if_neg hdollar] at h
    by_cases hname : isNameStart c = true
    · rw [if_pos hname] at h
      cases h
      obtain ⟨r, later, rfl, hlength, hr, hlater⟩ := Lexeme.exists_lengthWhile isNamePart t
      have htake : (r ++ later).takeWhile isNamePart = r := by
        rw [← Lexeme.take_lengthWhile, hlength, List.take_left]
      rw [htake, Nat.add_comm 1]
      exact ⟨c :: r, later, rfl, rfl, rfl, rfl, .name ⟨c, r, rfl, hname, hr⟩ hlater⟩
    rw [if_neg hname] at h
    by_cases hgroup : c = '('
    · subst hgroup
      rw [if_pos rfl] at h
      cases hfound : Closing.distance t 0 0 with
      | error what =>
        rw [hfound] at h
        cases h
      | ok k =>
        rw [hfound] at h
        cases h
        obtain ⟨raw, later, rfl, rfl, hstable⟩ := Closing.distance_stable hfound
        rw [List.take_left]
        refine ⟨↑ '(' :: raw ++ ([')'] : Text), later, by simp, by simp, rfl, rfl, ?_⟩
        exact .group (isGroupText_iff.2 (hstable []))
    · rw [if_neg hgroup] at h
      cases h

end Segment

/-! ## Scanning -/

open Segment

section Scanning

variable {t next : Text} {offset start stop : Nat} {run : Text} {later found : List Segment}
  {r : Rejection}

/-- Where the source of a row starts with a part of a name, so does its first text. -/
theorem WellFormed.head?_sources (h : WellFormed start (.text next start stop :: later)) :
    ∀ c ∈ (sources (.text next start stop :: later)).head?,
      isNamePart c = true → next.head? = some c := by
  intro c hc hpart
  cases next with
  | cons d next => exact hc
  | nil =>
    cases h with
    | text => cases hc
    | @escape _ _ _ _ _ escape _ _ hescape _ _ =>
      -- Without a text, an escape comes next, and it starts with a dollar sign.
      obtain ⟨l, hsource, -⟩ := hescape.ofDollar
      rw [sources_cons, sources_cons, hsource] at hc
      cases hc
      exact absurd hpart (by decide)

theorem WellFormed.exists_text (h : WellFormed offset found) :
    ∃ next stop later, found = .text next offset stop :: later := by
  cases h with
  | text => exact ⟨_, _, _, rfl⟩
  | escape => exact ⟨_, _, _, rfl⟩

/-- A row is found in its source. -/
theorem WellFormed.scan_sources (h : WellFormed offset found) :
    scan (sources found) 0 offset offset [] = .ok (found.map unresolved) := by
  induction h with
  | @text offset t h =>
    have hscan := scan_plain h [] offset offset []
    rw [List.append_nil] at hscan
    rw [sources_cons, sources, List.flatMap_nil, List.append_nil, source, hscan, scan,
      List.append_nil, List.reverse_reverse]
    rfl
  | @escape offset start stop t next escape later h hescape hstart hlater ih =>
    obtain ⟨l, hsource, hfound⟩ := (hescape.mono hlater.head?_sources).ofDollar
    rw [sources_cons, sources_cons, source, scan_plain h, hsource, List.append_nil,
      List.cons_append, scan_escape hfound, ← List.length_cons (a := CodePoint.scalar '$'),
      ← hsource, ← hstart, ih, List.reverse_reverse]
    rfl

/-- What stands before an insertion of a row is the source of a row, too. -/
theorem WellFormed.escapeAt (h : WellFormed offset found) {ins : Insertion}
    (hmem : .insertion ins ∈ found) :
    ∃ row after next, WellFormed offset row ∧
      sources found = sources row ++ (ins.source ++ after) ∧
      EscapeAt (offset + (sources row).length) next (.insertion ins) := by
  induction h with
  | text => simp at hmem
  | @escape offset start stop t next escape later h hescape hstart hlater ih =>
    rcases List.mem_cons.1 hmem with heq | hmem
    · cases heq
    have htext : sources [.text t offset (offset + t.length)] = t := List.append_nil t
    rcases List.mem_cons.1 hmem with rfl | hmem
    · refine ⟨_, sources (.text next start stop :: later), next, .text h, ?_, ?_⟩
      · rw [htext]
        rfl
      · rw [htext]
        exact hescape
    · obtain ⟨row, after, next', hrow, hsource, hins⟩ := ih hmem
      have hfirst := hlater.head?_sources
      obtain ⟨first, stop', later', rfl⟩ := hrow.exists_text
      -- The row begins as the source behind the escape does.
      have hescape' : escape.EscapeAt (offset + t.length) first := hescape.mono fun c hc => by
        refine hfirst c ?_
        rw [hsource, sources_cons, source, List.head?_append, List.head?_append, hc]
        rfl
      refine ⟨_, after, next', .escape h hescape' hstart hrow, ?_, ?_⟩
      · rw [sources_cons, sources_cons, hsource]
        simp only [sources_cons, List.append_assoc]
      · rw [sources_cons, sources_cons, source, List.length_append, List.length_append,
          ← Nat.add_assoc, ← Nat.add_assoc, ← hstart]
        exact hins

/-- The segments of a row stand one behind the other. -/
theorem WellFormed.pairwise_stop_le (h : WellFormed offset found) :
    (∀ segment ∈ found, offset ≤ segment.start) ∧
      found.Pairwise fun segment later => segment.stop ≤ later.start := by
  induction h with
  | text => exact ⟨List.forall_mem_singleton.2 (Nat.le_refl _), List.pairwise_singleton _ _⟩
  | @escape offset start stop t next escape later h hescape hstart hlater ih =>
    obtain ⟨hbehind, hpairwise⟩ := ih
    have hescape : escape.start = offset + t.length ∧
        escape.stop = offset + t.length + escape.source.length := by
      cases hescape <;> simp [Segment.start, Segment.stop, Insertion.start, Insertion.stop,
        Segment.source, Insertion.source]
    obtain ⟨hescapeStart, hescapeStop⟩ := hescape
    rw [← hstart] at hescapeStop
    have hfirst : ∀ segment ∈ escape :: .text next start stop :: later,
        offset + t.length ≤ segment.start := by
      refine List.forall_mem_cons.2 ⟨hescapeStart.ge, fun segment hsegment => ?_⟩
      have := hbehind segment hsegment
      omega
    refine ⟨List.forall_mem_cons.2 ⟨Nat.le_refl _, fun segment hsegment => ?_⟩, .cons hfirst
      (.cons (fun segment hsegment => ?_) hpairwise)⟩
    · exact Nat.le_trans (Nat.le_add_right _ _) (hfirst segment hsegment)
    · rw [hescapeStop]
      exact hbehind segment hsegment

/-- Texts by what a scan meets first in them. -/
theorem scan_induction {motive : Text → Prop} (nil : motive [])
    (plain : ∀ (c : CodePoint) t, c ≠ '$' → motive t → motive (c :: t))
    (dollar : ∀ t, (∀ l later, t = l ++ later → motive later) → motive ('$' :: t)) (t : Text) :
    motive t := by
  -- For all suffixes at once, since the scan goes on behind an escape, wherever it ends.
  have hsuffix (t : Text) : ∀ l later, t = l ++ later → motive later := by
    induction t with
    | nil =>
      intro l later h
      rw [(List.append_eq_nil_iff.1 h.symm).2]
      exact nil
    | cons c t ih =>
      intro l later h
      cases l with
      | cons d l => exact ih l later (List.cons.inj h).2
      | nil =>
        cases h
        by_cases hc : c = '$'
        · subst hc
          exact dollar t ih
        · exact plain c t hc (ih [] t rfl)
  exact hsuffix t [] t rfl

/-- What was found is a well-formed row whose source is the text. -/
theorem wellFormed_of_scan (hrun : ↑ '$' ∉ run) (hoffset : offset = start + run.length)
    (h : scan t 0 offset start run = .ok found) :
    WellFormed start found ∧ found.map unresolved = found ∧ sources found = run.reverse ++ t := by
  induction t using scan_induction generalizing offset start run found with
  | nil =>
    cases h
    subst hoffset
    refine ⟨?_, rfl, rfl⟩
    rw [← List.length_reverse]
    exact .text (by simpa using hrun)
  | plain c t hc ih =>
    rw [scan, if_neg hc] at h
    have hrun' : ↑ '$' ∉ c :: run := fun hmem =>
      (List.mem_cons.1 hmem).elim (fun h => hc h.symm) hrun
    obtain ⟨hwell, hbare, hsource⟩ := ih hrun' (by rw [hoffset]; rfl) h
    exact ⟨hwell, hbare, by simpa using hsource⟩
  | dollar t ih =>
    cases hfound : ofDollar offset t with
    | error r =>
      rw [scan, if_pos rfl, hfound] at h
      cases h
    | ok result =>
      obtain ⟨escape, n⟩ := result
      obtain ⟨l, rest, rfl, rfl, hsource, hbare, hescape⟩ := escapeAt_of_ofDollar hfound
      rw [scan_escape hfound] at h
      obtain ⟨rest', hrest, rfl⟩ := exists_of_map_eq_ok h
      obtain ⟨hwell, hbares, hsources⟩ := ih l rest rfl List.not_mem_nil (Nat.add_zero _).symm hrest
      rw [List.reverse_nil, List.nil_append] at hsources
      obtain ⟨next, stop, later, rfl⟩ := hwell.exists_text
      -- The scan keeps the run of plain characters back to front.
      obtain ⟨first, rfl⟩ : ∃ first : Text, run = first.reverse := ⟨run.reverse, by simp⟩
      rw [List.mem_reverse] at hrun
      rw [List.length_reverse] at hoffset
      subst hoffset
      rw [List.reverse_reverse]
      refine ⟨.escape hrun (hescape.mono fun c hc _ => ?_) ?_ hwell, ?_, ?_⟩
      · rw [← hsources, sources_cons, source, List.head?_append, hc]
        rfl
      · rw [hsource, List.length_cons]
      · rw [List.map_cons, List.map_cons, hbare, hbares]
        rfl
      · rw [sources_cons, sources_cons, hsources, hsource]
        rfl

/-- A scan fails at a dollar sign, before which it succeeds. -/
theorem exists_of_scan_error (h : scan t 0 offset start run = .error r) :
    ∃ before after : Text, t = before ++ ↑ '$' :: after ∧
      ofDollar (offset + before.length) after = .error r ∧
      ∃ found, scan before 0 offset start run = .ok found := by
  induction t using scan_induction generalizing offset start run with
  | nil => cases h
  | plain c t hc ih =>
    rw [scan, if_neg hc] at h
    obtain ⟨before, after, rfl, hdollar, found, hfound⟩ := ih h
    refine ⟨c :: before, after, rfl, ?_, found, ?_⟩
    · rw [List.length_cons, Nat.add_comm before.length, ← Nat.add_assoc]
      exact hdollar
    · rw [scan, if_neg hc, hfound]
  | dollar t ih =>
    cases hfound : ofDollar offset t with
    | error r' =>
      rw [scan, if_pos rfl, hfound] at h
      cases h
      exact ⟨[], t, rfl, hfound, _, rfl⟩
    | ok result =>
      obtain ⟨escape, n⟩ := result
      obtain ⟨l, rest, rfl, rfl, hsource, hbare, hescape⟩ := escapeAt_of_ofDollar hfound
      rw [scan_escape hfound] at h
      obtain ⟨before, after, rfl, hdollar, found, hbefore⟩ := ih l rest rfl (of_map_eq_error h)
      -- What stands behind the escape is the same at first, so the escape is found again.
      have hescape' : escape.EscapeAt offset before := by
        refine hescape.mono fun c hc _ => ?_
        rw [List.head?_append, hc]
        rfl
      obtain ⟨l', hsource', hfound'⟩ := hescape'.ofDollar
      obtain rfl : l = l' := (List.cons.inj (hsource.symm.trans hsource')).2
      refine ⟨'$' :: (l ++ before), after, by simp, ?_, ?_⟩
      · rw [List.length_cons, List.length_append, ← hdollar]
        congr 1
        omega
      · exact ⟨_, by rw [scan_escape hfound', hbefore]; rfl⟩

/-- What was found before an escape is found again with the escape behind it. -/
theorem scan_append_escape {escape : Segment} (h : scan t 0 offset start run = .ok found)
    (hescape : escape.EscapeAt (offset + t.length) next) :
    scan (t ++ (escape.source ++ next)) 0 offset start run =
      (scan next 0 (offset + t.length + escape.source.length)
        (offset + t.length + escape.source.length) []).map (found ++ escape.unresolved :: ·) := by
  induction t using scan_induction generalizing offset start run found with
  | nil =>
    cases h
    obtain ⟨l, hsource, hfound⟩ := hescape.ofDollar
    rw [List.nil_append, hsource, List.cons_append]
    exact scan_escape hfound start run
  | plain c t hc ih =>
    rw [scan, if_neg hc] at h
    rw [List.length_cons, Nat.add_comm t.length, ← Nat.add_assoc] at hescape ⊢
    rw [List.cons_append, scan, if_neg hc, ih h hescape]
  | dollar t ih =>
    cases hdollar : ofDollar offset t with
    | error r =>
      rw [scan, if_pos rfl, hdollar] at h
      cases h
    | ok result =>
      obtain ⟨first, n⟩ := result
      obtain ⟨l, rest, rfl, rfl, hsource, hbare, hfirst⟩ := escapeAt_of_ofDollar hdollar
      rw [scan_escape hdollar] at h
      obtain ⟨later, hlater, rfl⟩ := exists_of_map_eq_ok h
      -- Behind the first escape stands what stood there, or the dollar sign of the new one.
      have hfirst' : first.EscapeAt offset (rest ++ (escape.source ++ next)) := by
        refine hfirst.mono fun c hc hpart => ?_
        cases rest with
        | cons => exact hc
        | nil =>
          obtain ⟨_, hdollar, -⟩ := hescape.ofDollar
          rw [hdollar] at hc
          cases hc
          exact absurd hpart (by decide)
      obtain ⟨l', hsource', hfound⟩ := hfirst'.ofDollar
      obtain rfl : l = l' := (List.cons.inj (hsource.symm.trans hsource')).2
      have hlength : offset + (↑ '$' :: (l ++ rest)).length =
          offset + (l.length + 1) + rest.length := by
        rw [List.length_cons, List.length_append]
        omega
      rw [hlength] at hescape ⊢
      rw [List.cons_append, List.append_assoc, scan_escape hfound, ih l rest rfl hlater hescape,
        hbare]
      cases scan next 0 _ _ [] <;> rfl

end Scanning

/-! ## Bodies -/

/-- The offset of the dollar sign at which a malformed escape starts. -/
def Rejection.dollar? (r : Rejection) : Option Int :=
  match r.cause.fault with
  | .invalidEscape => r.anchor
  | .unbalancedGroup => r.start
  | _ => none

theorem Segment.dollar?_of_ofDollar {dollar : Nat} {t : Text} {r : Rejection}
    (h : ofDollar dollar t = .error r) : r.dollar? = some (dollar : Int) := by
  unfold Segment.ofDollar at h
  split at h
  next => cases h; rfl
  next c rest =>
    split at h
    next => cases h
    next =>
      split at h
      next => cases h
      next =>
        split at h
        next =>
          split at h
          next => cases h
          next => cases h; rfl
        next => cases h; rfl

/-- What stands before an insertion of a body can be scanned by itself. -/
theorem escapeAt_of_segments {body : Text} {found : List Segment} (h : segments body = .ok found)
    {ins : Insertion} (hmem : .insertion ins ∈ found) :
    ∃ before after next, body = before ++ (ins.source ++ after) ∧
      (∃ row, segments before = .ok row) ∧
        Segment.EscapeAt before.length next (.insertion ins) := by
  obtain ⟨hfound, -, hsource⟩ := wellFormed_of_scan List.not_mem_nil rfl h
  obtain ⟨row, after, next, hrow, hbody, hins⟩ := hfound.escapeAt hmem
  rw [Nat.zero_add] at hins
  exact ⟨sources row, after, next, hsource.symm.trans hbody, ⟨_, hrow.scan_sources⟩, hins⟩

/-- The insertions of a body stand in it where they say. -/
theorem insertion_of_segments {body : Text} {found : List Segment} (h : segments body = .ok found)
    {ins : Insertion} (hmem : .insertion ins ∈ found) :
    ∃ before after : Text, body = before ++ (ins.source ++ after) ∧ ins.start = before.length := by
  obtain ⟨before, after, next, hbody, -, hins⟩ := escapeAt_of_segments h hmem
  refine ⟨before, after, hbody, ?_⟩
  cases hins <;> rfl

/-- A well-formed row is found in its source; what is found in a body is such a row, without nodes,
and the body is its source; and a body that is no source of one is rejected, at a dollar sign before
which it could be scanned. -/
theorem segments_sources :
    (∀ row, WellFormed 0 row → segments (sources row) = .ok (row.map unresolved)) ∧
    ∀ body,
      (∀ row, segments body = .ok row →
        WellFormed 0 row ∧ row.map unresolved = row ∧ sources row = body) ∧
      ((∃ r, segments body = .error r) ↔ ¬ ∃ row, WellFormed 0 row ∧ sources row = body) ∧
      ∀ r, segments body = .error r →
        ∃ dollar : Nat, r.dollar? = some (dollar : Int) ∧ body[dollar]? = some ↑ '$' ∧
          ∃ row, segments (body.take dollar) = .ok row := by
  have hfound (body : Text) (row : List Segment) (h : segments body = .ok row) :
      WellFormed 0 row ∧ row.map unresolved = row ∧ sources row = body :=
    wellFormed_of_scan List.not_mem_nil rfl h
  refine ⟨fun row h => h.scan_sources, fun body => ⟨hfound body, ⟨?_, ?_⟩, fun r h => ?_⟩⟩
  · rintro ⟨r, h⟩ ⟨row, hrow, rfl⟩
    have := hrow.scan_sources
    rw [← segments, h] at this
    cases this
  · intro hnone
    cases h : segments body with
    | error r => exact ⟨r, rfl⟩
    | ok row =>
      obtain ⟨hrow, -, hsource⟩ := hfound body row h
      exact absurd ⟨row, hrow, hsource⟩ hnone
  · obtain ⟨before, after, rfl, hdollar, hbefore⟩ := exists_of_scan_error h
    refine ⟨before.length, ?_, by simp, by rwa [List.take_left]⟩
    rw [← Nat.zero_add before.length]
    exact Segment.dollar?_of_ofDollar hdollar

/-- A group may hold parentheses in a string, and a name ends before a point. -/
theorem segments_sources_group :
    let row : List Segment :=
      [.text ['a'] 0 1, .insertion (.name ['x'] 1 3 .missing), .text ['.'] 3 4,
        .insertion (.group ['"', ')', '"'] 4 10 none .missing), .text [] 10 10]
    WellFormed 0 row ∧ segments (sources row) = .ok row ∧
      let body : Text := ['$', '$', '$']
      (segments body = .error
        { cause := .dollarAtEnd, start := some 3, stop := some 4, anchor := some 2 }) ∧
      ∃ dollar : Nat, some 2 = some (dollar : Int) ∧ body[dollar]? = some ↑ '$' ∧
        ∃ row, segments (body.take dollar) = .ok row := by
  intro row
  have hgroup : IsGroupText ['"', ')', '"'] := isGroupText_iff.2 rfl
  have hname : IsIdentifier ['x'] := ⟨'x', [], rfl, by decide, nofun⟩
  have hpoint : ∀ c ∈ (['.'] : Text).head?, isNamePart c = false := by
    rintro _ ⟨⟩
    decide
  have hrow : WellFormed 0 row :=
    .escape (by decide) (.name hname hpoint) rfl (.escape (by decide) (.group hgroup) rfl
      (.text (by decide)))
  obtain ⟨hfound, hbody⟩ := segments_sources
  exact ⟨hrow, hfound row hrow, rfl, (hbody ['$', '$', '$']).2.2 _ rfl⟩

end Splice
