import Splice.CommandLine.Run
import Splice.Proofs.CommandLine.Console
import Splice.Proofs.Rewrite.Conservation

/-!
# What stops a run

A run fails over a source only for the reasons that are listed here, whether it prints lines or
JSON.

* `StopsRun`: why a source stops a run.
* `Run.stopsRun_of_lines`, `Run.stopsRun_of_findings`: there is no other reason.
-/

namespace Splice

/-- The nodes that are written about a changed argument list: its call, and for tools also what its
literals became. -/
inductive Site.Writes (s : Site) : (json : Bool) → Node → Prop
  | call {json : Bool} : s.Writes json s.node
  | value {args : List Argument} {role : Role} {raw : Text} {n : Node} (hargs : args ∈ s.lowered)
      (hvalue : .value role raw n ∈ args) : s.Writes true n

/-- The text of the file that a source names. -/
def System.Holds (system : System) (source text : Text) : Prop :=
  FilePath.isUsable (sourceName source) = true ∧
    ∃ bytes, system.read (sourceName source) = .ok bytes ∧ decodeFile bytes = .ok text

/-- Why a source stops a run: no file can have its name; the bytes of its file are no text; it, or a
node that is written about it, is nested deeper than the stack; an integer in it has more digits
than are read; or there is a surrogate in a line about it, unless JSON is printed. -/
inductive StopsRun (system : System) (json : Bool) (source : Text) : Failure → Prop
  | notFileName (hname : FilePath.isUsable (sourceName source) = false) :
      StopsRun system json source .notFileName
  | notText {bytes : ByteArray} (hname : FilePath.isUsable (sourceName source) = true)
      (hread : system.read (sourceName source) = .ok bytes)
      (hbytes : String.fromUTF8? bytes = none) : StopsRun system json source .notText
  | deepSource {text : Text} (htext : system.Holds source text)
      (hfits : system.fits text = false) : StopsRun system json source .stackExhausted
  | longInteger {text : Text} {digits : Nat} (htext : system.Holds source text)
      (hlower : lowerText (sourceName source) text = .error (.integerTooLong digits)) :
      StopsRun system json source (.integerTooLong digits)
  | deepNode {text : Text} {log : Log} {s : Site} {n : Node} (htext : system.Holds source text)
      (hlower : lowerText (sourceName source) text = .ok log) (hs : s ∈ log.sites)
      (hn : s.Writes json n) (hfits : system.fitsNode n = false) :
      StopsRun system json source .stackExhausted
  | notPrintable {text : Text} {log : Log} {s : Site} {i : Fin 0x800} (hjson : json = false)
      (htext : system.Holds source text)
      (hlower : lowerText (sourceName source) text = .ok log) (hs : s ∈ log.sites)
      (hline : .surrogate i ∈ sourceName source ++ s.node.text) :
      StopsRun system json source .notPrintable

theorem isLongInteger_of_readSource {file : Option Text} {source : Text} {failure : Failure}
    (h : readSource file source = .error failure) : failure.IsLongInteger := by
  rw [readSource] at h
  split at h
  · cases h
  · cases h
  · next fault _ =>
    cases fault with
    | tooManyDigits digits => exact ⟨digits, by cases h; rfl⟩
    | escape | notOneCharacter => cases h

theorem parseProgram_of_readSource {file : Option Text} {source : Text} {p : Program}
    (h : readSource file source = .ok (.ok p)) : parseProgram source = .ok p := by
  unfold readSource at h
  split at h
  · next hp => cases h; exact hp
  · cases h
  · next fault _ => cases fault <;> cases h

theorem isLongInteger_of_lowerText {file source : Text} {failure : Failure}
    (h : lowerText file source = .error failure) : failure.IsLongInteger := by
  rw [lowerText] at h
  obtain hread | ⟨parsed, hread, h⟩ := bind_eq_error.1 h
  · exact isLongInteger_of_readSource hread
  · cases parsed with
    | error d => cases h
    | ok p =>
      obtain hresult | ⟨p', -, h⟩ := bind_eq_error.1 h
      · exact Rewriter.isLongInteger_of_program rfl (parseProgram_of_readSource hread) hresult
      · cases h

section

variable {system : System} {source : Text} {failure : Failure}

theorem System.stopsRun_of_lowerFile (json : Bool)
    (h : system.lowerFile (sourceName source) = .error failure) :
    StopsRun system json source failure := by
  -- The checks in their order: the name, the bytes, the depth of the text, its integers.
  rw [lowerFile] at h
  split at h
  next hname =>
    cases h
    exact .notFileName (by simpa using hname)
  next hname =>
    have hname : FilePath.isUsable (sourceName source) = true := by simpa using hname
    split at h
    next => cases h
    next bytes hread =>
      obtain hbytes | ⟨text, htext, h⟩ := bind_eq_error.1 h
      · rw [decodeFile] at hbytes
        split at hbytes
        · cases hbytes
        · next hbytes' => cases hbytes; exact .notText hname hread hbytes'
      · have hholds : system.Holds source text := ⟨hname, bytes, hread, htext⟩
        split at h
        next hfits =>
          cases h
          exact .deepSource hholds (by simpa using hfits)
        next =>
          obtain hlower | ⟨log, -, h⟩ := bind_eq_error.1 h
          · obtain ⟨digits, rfl⟩ := isLongInteger_of_lowerText hlower
            exact .longInteger hholds hlower
          · cases h

/-- Changed argument lists are those of the text of the file. -/
theorem System.holds_of_mem_sites {r : Report} {s : Site}
    (h : system.lowerFile (sourceName source) = .ok r) (hs : s ∈ r.log.sites) :
    r.source = sourceName source ∧
      ∃ text, system.Holds source text ∧ lowerText (sourceName source) text = .ok r.log := by
  rw [lowerFile] at h
  split at h
  next => cases h
  next hname =>
    split at h
    next => cases h; cases hs
    next bytes hread =>
      obtain ⟨text, htext, h⟩ := bind_eq_ok.1 h
      split at h
      next => cases h
      next =>
        obtain ⟨log, hlower, h⟩ := bind_eq_ok.1 h
        cases h
        exact ⟨rfl, text, ⟨by simpa using hname, bytes, hread, htext⟩, hlower⟩

theorem System.lowerFile_of_holds {text : Text} {log : Log} (h : system.Holds source text)
    (hfits : system.fits text = true) (hlower : lowerText (sourceName source) text = .ok log) :
    system.lowerFile (sourceName source) = .ok ⟨sourceName source, log⟩ := by
  obtain ⟨hname, bytes, hread, htext⟩ := h
  simp [lowerFile, hname, hread, htext, hfits, hlower, bind, Except.bind, pure, Except.pure]

theorem System.writeNode_eq_error {n : Node} (h : system.writeNode n = .error failure) :
    failure = .stackExhausted ∧ system.fitsNode n = false := by
  rw [writeNode] at h
  split at h
  · cases h
  · next hfits => cases h; exact ⟨rfl, by simpa using hfits⟩

/-- A line that is not printed is about a node that is nested too deeply, or has a surrogate. -/
theorem Report.eq_of_siteLine {s : Site}
    (h : (Console.ofFailing (siteLine system.writeNode source s) >>= Console.print).result =
      .error failure) :
    failure = .stackExhausted ∧ system.fitsNode s.node = false ∨
      failure = .notPrintable ∧ ∃ i, .surrogate i ∈ source ++ s.node.text := by
  obtain hline | ⟨line, hline, hprint⟩ := Console.result_bind_eq_error.1 h
  · obtain hwrite | ⟨node, -, hline⟩ := bind_eq_error.1 hline
    · exact .inl (System.writeNode_eq_error hwrite)
    · cases hline
  · obtain ⟨node, hwrite, hline⟩ := bind_eq_ok.1 hline
    obtain rfl : s.node.text = node := by
      rw [System.writeNode] at hwrite
      split at hwrite
      · cases hwrite; rfl
      · cases hwrite
    cases hline
    rw [Console.print] at hprint
    split at hprint
    next => cases hprint
    next hencode =>
      cases hprint
      exact .inr ⟨rfl, by simpa using Text.encode?_eq_none.1 hencode⟩

theorem Run.stopsRun_of_lines (h : (lines system source).result = .error failure) :
    StopsRun system false source failure := by
  obtain hfile | ⟨r, hfile, h⟩ := Console.result_bind_eq_error.1 h
  · exact system.stopsRun_of_lowerFile false hfile
  obtain hreport | ⟨_, -, h⟩ := Console.result_bind_eq_error.1 h
  · obtain hsites | ⟨_, -, hdiagnostics⟩ := Console.result_bind_eq_error.1 hreport
    · obtain ⟨s, hs, hline⟩ := Console.exists_of_forM_eq_error hsites
      obtain ⟨hname, text, htext, hlower⟩ := system.holds_of_mem_sites hfile hs
      rw [hname] at hline
      obtain ⟨rfl, hfits⟩ | ⟨rfl, i, hi⟩ := Report.eq_of_siteLine hline
      · exact .deepNode htext hlower hs .call hfits
      · exact .notPrintable rfl htext hlower hs hi
    · obtain ⟨d, -, hd⟩ := Console.exists_of_forM_eq_error hdiagnostics
      cases hd
  · cases h

theorem Report.writes_of_siteJson {s : Site}
    (h : siteJson system.writeNode source s = .error failure) :
    failure = .stackExhausted ∧ ∃ n, s.Writes true n ∧ system.fitsNode n = false := by
  obtain hcall | ⟨call, -, h⟩ := bind_eq_error.1 h
  · obtain ⟨rfl, hfits⟩ := System.writeNode_eq_error hcall
    exact ⟨rfl, s.node, .call, hfits⟩
  obtain hliterals | ⟨literals, -, h⟩ := bind_eq_error.1 h
  · obtain ⟨args, hargs, hliteral⟩ := exists_of_mapM_eq_error hliterals
    obtain ⟨arg, harg, hvalue⟩ := exists_of_mapM_eq_error hliteral
    cases arg with
    | text t => cases hvalue
    | value role raw n =>
      obtain hwrite | ⟨text, -, hvalue⟩ := bind_eq_error.1 hvalue
      · obtain ⟨rfl, hfits⟩ := System.writeNode_eq_error hwrite
        exact ⟨rfl, n, .value hargs harg, hfits⟩
      · cases hvalue
  · cases h

theorem Run.stopsRun_of_findings (h : findings system source = .error failure) :
    StopsRun system true source failure := by
  obtain hfile | ⟨r, hfile, h⟩ := bind_eq_error.1 h
  · exact system.stopsRun_of_lowerFile true hfile
  obtain hlowered | ⟨lowered, -, h⟩ := bind_eq_error.1 h
  · obtain ⟨s, hs, hsite⟩ := exists_of_mapM_eq_error hlowered
    obtain ⟨-, text, htext, hlower⟩ := system.holds_of_mem_sites hfile hs
    obtain ⟨rfl, n, hn, hfits⟩ := Report.writes_of_siteJson hsite
    exact .deepNode htext hlower hs hn hfits
  · cases h

end

end Splice
