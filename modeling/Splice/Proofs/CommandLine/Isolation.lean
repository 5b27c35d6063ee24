import Splice.Proofs.CommandLine.Stopping

/-!
# Sources stand apart

A run over several sources finds in each of them what a run over that source alone finds, and it
prints the findings one behind the other. A source that stops the run over itself alone stops the
run over all of them too: what was printed about the sources before it stays, and nothing is said
about those behind it.

* `IsCutOff`: a run over several sources that one of them stops.
* `Gathers`: a run over several sources that prints what the runs over single sources print.
* `run_gathers`: a run over several sources is cut off by one of them, or it gathers all of them.
-/

namespace Splice

/-! ## Command lines that name sources -/

namespace Word

theorem ofArguments_sources {sources : List Text}
    (h : ∀ s ∈ sources, ofArgument s = .ok (.source s)) :
    ofArguments sources = .ok (sources.map .source) := by
  induction sources with
  | nil => rfl
  | cons s sources ih =>
    obtain ⟨hs, hsources⟩ := List.forall_mem_cons.1 h
    rw [ofArguments, hs]
    simp only [bind, Except.bind, ih hsources]
    rfl

end Word

namespace Reading

theorem words_sources (r : Reading) (row sources : List Text) :
    r.words (row.map .source) (sources.map .source) =
      r.words ((sources.reverse ++ row).map .source) [] := by
  induction sources generalizing row with
  | nil => rfl
  | cons s sources ih => simpa [words] using ih (s :: row)

theorem takeRow_sources {r : Reading} {sources : List Text} (hr : r.sources = [])
    (hne : sources ≠ []) : r.takeRow (sources.map .source) = { r with sources } := by
  obtain ⟨s, rest, rfl⟩ := List.exists_cons_of_ne_nil hne
  simp [takeRow, hr, List.filter_map, Function.comp_def, Word.plain]

/-- A row of sources alone asks for their rewriting. -/
theorem words_of_sources {r : Reading} {sources : List Text} (hr : r.sources = [])
    (hextra : r.extra = []) (hne : sources ≠ []) :
    r.words [] (sources.map .source) = .ok (.lower sources r.json) := by
  have hrow := words_sources r [] sources
  rw [List.map_nil, List.append_nil] at hrow
  rw [hrow, words, ← List.map_reverse, List.reverse_reverse, takeRow_sources hr hne]
  simp [hextra, hne]

end Reading

/-- The option for JSON, if it is asked for. -/
def OptionName.jsonArguments (json : Bool) : List Text := if json then ["--json"] else []

/-- Names of sources that do not look like options ask for the rewriting of these sources. -/
theorem Request.ofArguments_sources {sources : List Text} (hne : sources ≠ [])
    (h : ∀ s ∈ sources, Word.ofArgument s = .ok (.source s)) (json : Bool) :
    Request.ofArguments (OptionName.jsonArguments json ++ sources) = .ok (.lower sources json) := by
  have hwords := Word.ofArguments_sources h
  cases json with
  | false =>
    rw [Request.ofArguments, OptionName.jsonArguments]
    simp only [Bool.false_eq_true, if_false, List.nil_append, hwords]
    exact Reading.words_of_sources rfl rfl hne
  | true =>
    have hjson : Word.ofArguments ("--json" :: sources) =
        .ok (.flag .json none :: sources.map .source) := by
      rw [Word.ofArguments, show Word.ofArgument "--json" = .ok (.flag .json none) from rfl]
      simp only [bind, Except.bind, hwords]
      rfl
    rw [Request.ofArguments, OptionName.jsonArguments]
    simp only [if_true, List.singleton_append, hjson]
    exact Reading.words_of_sources (r := { json := true }) rfl rfl hne

/-! ## What tools are told -/

namespace Json

/-- The member of an object with a key. -/
def member? (key : Text) : Json → Option Json
  | object members => members.lookup key
  | _ => none

/-- Whether a value is the object of an error. -/
def IsError (json : Json) : Prop := json.member? "severity" = some (.string "error")

/-- The object that a run prints for tools. -/
def ofRun (exitCode : Nat) (diagnostics lowered : List Json) : Json :=
  .object [("exit_code", .number exitCode), ("diagnostics", .array diagnostics),
    ("lowered", .array lowered)]

end Json

theorem Report.isError_diagnosticJson (source : Text) (d : Diagnostic) :
    (diagnosticJson source d).IsError ↔ d.isError = true := by
  have hmember : (diagnosticJson source d).member? "severity" = some (.string d.severity) := rfl
  rw [Json.IsError, hmember, Option.some_inj, Json.string.injEq, Diagnostic.isError, beq_iff_eq,
    Text.ofString_inj]

/-- What tools are told about a source tells whether there is an error in it. -/
theorem Report.failed_findings {write : WriteNode} {r : Report} {f : Findings}
    (h : r.findings write = .ok f) :
    f.failed = r.hasErrors ∧ (f.failed = true ↔ ∃ d ∈ f.diagnostics, d.IsError) := by
  rw [findings] at h
  cases hlowered : r.log.sites.mapM (siteJson write r.source) with
  | error e =>
    rw [hlowered] at h
    cases h
  | ok lowered =>
    rw [hlowered] at h
    cases h
    exact ⟨rfl, by simp [hasErrors, isError_diagnosticJson]⟩

/-! ## Runs over several sources -/

/-- A run printed what `runs` printed, one behind the other. -/
structure Console.PrintsAll (whole : Console Nat) (runs : List (Console Nat)) : Prop where
  stdout : whole.stdout = String.join (runs.map Console.stdout)
  stderr : whole.stderr = String.join (runs.map Console.stderr)

/-- A run ends and prints one object. The exit code in it is that of the run, and it tells whether
there is an error among the diagnostics in it. -/
def Console.PrintsObject (c : Console Nat) (diagnostics lowered : List Json) : Prop :=
  ∃ code : Nat, (code = 1 ↔ ∃ d ∈ diagnostics, d.IsError) ∧ c.result = .ok code ∧ c.stderr = "" ∧
    Text.encode? ((Json.ofRun code diagnostics lowered).text ++ "\n") = some c.stdout

/-- The run `whole` over several sources is stopped by one of them, over which the run alone comes
to the same failure. The runs over those before it end; what they print is there, and what the run
over the failing one prints. If JSON is asked for, nothing is printed. -/
inductive IsCutOff (system : System) (json : Bool) (whole : Console Nat)
    (alone : Text → Console Nat) : List Text → Prop
  | intro {before after : List Text} {s : Text} {failure : Failure}
      (hstops : StopsRun system json s failure)
      (hbefore : ∀ b ∈ before, ∃ code, (alone b).result = .ok code)
      (halone : (alone s).result = .error failure)
      (hwhole : whole.result = .error failure)
      (hlines : json = false → whole.PrintsAll ((before ++ [s]).map alone))
      (hobject : json = true → whole.stdout = "" ∧ whole.stderr = "") :
      IsCutOff system json whole alone (before ++ s :: after)

/-- The run `whole` over several sources gathers what the runs over each of them alone print. -/
structure Gathers (json : Bool) (whole : Console Nat) (alone : Text → Console Nat)
    (sources : List Text) : Prop where
  ends : ∀ s ∈ sources, (alone s).result = .ok 0 ∨ (alone s).result = .ok 1
  /-- The exit code tells whether there is an error in some source. -/
  exitCode : whole.result = .ok (if ∃ s ∈ sources, (alone s).result = .ok 1 then 1 else 0)
  /-- The lines for people stand in the order of the sources. -/
  lines : json = false → whole.PrintsAll (sources.map alone)
  /-- The objects for tools stand in the order of the sources, in lists of one object. -/
  object : json = true → ∃ diagnostics lowered : Text → List Json,
    (∀ s ∈ sources, (alone s).PrintsObject (diagnostics s) (lowered s)) ∧
      whole.PrintsObject (sources.flatMap diagnostics) (sources.flatMap lowered)

section

variable {system : System} {json : Bool} {whole : Console Nat} {alone alone' : Text → Console Nat}
  {sources : List Text}

theorem IsCutOff.exists_failing (h : IsCutOff system json whole alone sources) :
    ∃ s ∈ sources, ∃ failure, (alone s).result = .error failure := by
  obtain ⟨-, -, hfails, -, -, -⟩ := h
  exact ⟨_, List.mem_append_right _ List.mem_cons_self, _, hfails⟩

theorem IsCutOff.congr (h : IsCutOff system json whole alone sources)
    (halone : ∀ s ∈ sources, alone s = alone' s) : IsCutOff system json whole alone' sources := by
  obtain @⟨before, after, s, failure, hstops, hbefore, hs, hwhole, hlines, hobject⟩ := h
  have hrow : ∀ t ∈ before ++ [s], alone t = alone' t := fun t ht =>
    halone t (by
      rw [← List.singleton_append, ← List.append_assoc]
      exact List.mem_append_left after ht)
  refine .intro hstops (fun b hb => ?_) ?_ hwhole (fun hjson => ?_) hobject
  · rw [← hrow b (List.mem_append_left _ hb)]
    exact hbefore b hb
  · rw [← hrow s (by simp)]
    exact hs
  · rw [← List.map_congr_left hrow]
    exact hlines hjson

theorem Gathers.congr (h : Gathers json whole alone sources)
    (halone : ∀ s ∈ sources, alone s = alone' s) : Gathers json whole alone' sources where
  ends s hs := by
    rw [← halone s hs]
    exact h.ends s hs
  exitCode := by
    rw [h.exitCode]
    refine congrArg Except.ok (if_congr ?_ rfl rfl)
    exact exists_congr fun s => and_congr_right fun hs => by rw [halone s hs]
  lines hjson := by
    rw [← List.map_congr_left halone]
    exact h.lines hjson
  object hjson := by
    obtain ⟨diagnostics, lowered, hsingle, hwhole⟩ := h.object hjson
    exact ⟨diagnostics, lowered, fun s hs => halone s hs ▸ hsingle s hs, hwhole⟩

end

namespace Run

variable {system : System} {sources : List Text}

theorem exitCode_eq_one {failed : Text → Bool} :
    exitCode (sources.map failed) = 1 ↔ ∃ s ∈ sources, failed s = true := by
  simp [exitCode]

theorem exitCode_single (failed : Bool) : exitCode [failed] = 0 ∨ exitCode [failed] = 1 := by
  cases failed <;> simp [exitCode]

theorem exitCode_of_single {failed : Text → Bool} :
    exitCode (sources.map failed) = if ∃ s ∈ sources, exitCode [failed s] = 1 then 1 else 0 := by
  simp [exitCode]

/-- Runs that end gather what was found if the run over all of them ends with their exit code. -/
theorem gathers_of_ends {json : Bool} {whole : Console Nat} {alone : Text → Console Nat}
    {failed : Text → Bool} (halone : ∀ s ∈ sources, (alone s).result = .ok (exitCode [failed s]))
    (hwhole : whole.result = .ok (exitCode (sources.map failed)))
    (hlines : json = false → whole.PrintsAll (sources.map alone))
    (hobject : json = true → ∃ diagnostics lowered : Text → List Json,
      (∀ s ∈ sources, (alone s).PrintsObject (diagnostics s) (lowered s)) ∧
        whole.PrintsObject (sources.flatMap diagnostics) (sources.flatMap lowered)) :
    Gathers json whole alone sources where
  ends s hs := by
    rw [halone s hs, Except.ok.injEq, Except.ok.injEq]
    exact exitCode_single _
  exitCode := by
    rw [hwhole, exitCode_of_single]
    refine congrArg Except.ok (if_congr ?_ rfl rfl)
    exact exists_congr fun s => and_congr_right fun hs => by rw [halone s hs, Except.ok.injEq]
  lines := hlines
  object := hobject

theorem lower_lines_of_ok (failed : Text → Bool)
    (h : ∀ s ∈ sources, (lines system s).result = .ok (failed s)) :
    lower system sources false = ⟨String.join (sources.map fun s => (lines system s).stdout),
      String.join (sources.map fun s => (lines system s).stderr),
      .ok (exitCode (sources.map failed))⟩ := by
  rw [lower, Console.mapM_of_ok h]
  simp [bind, pure]

theorem lower_lines_of_error {before after : List Text} {s : Text} {failure : Failure}
    (hbefore : ∀ b ∈ before, ∃ failed, (lines system b).result = .ok failed)
    (hs : (lines system s).result = .error failure) :
    lower system (before ++ s :: after) false =
      ⟨String.join ((before ++ [s]).map fun s => (lines system s).stdout),
        String.join ((before ++ [s]).map fun s => (lines system s).stderr), .error failure⟩ := by
  rw [lower, Console.mapM_of_error hbefore hs]
  rfl

/-- A run over one source prints what is found in it, whether or not it ends. -/
theorem lower_single (s : Text) :
    (lower system [s] false).stdout = (lines system s).stdout ∧
      (lower system [s] false).stderr = (lines system s).stderr ∧
      (lower system [s] false).result =
        (lines system s).result.map fun failed => exitCode [failed] := by
  cases h : (lines system s).result with
  | ok failed =>
    rw [lower_lines_of_ok (fun _ => failed) (List.forall_mem_singleton.2 h)]
    simp [Except.map]
  | error failure =>
    rw [← List.nil_append [s], lower_lines_of_error (List.forall_mem_nil _) h]
    simp [Except.map]

theorem lower_findings_of_ok (found : Text → Findings)
    (h : ∀ s ∈ sources, findings system s = .ok (found s)) :
    ∃ printed, Text.encode? ((Findings.json (sources.map found)).text ++ "\n") = some printed ∧
      lower system sources true =
        ⟨printed, "", .ok (exitCode (sources.map fun s => (found s).failed))⟩ := by
  have hencodes : Text.encode? ((Findings.json (sources.map found)).text ++ "\n") ≠ none := by
    rw [Ne, Text.encode?_eq_none]
    simp [Json.surrogate_notMem_text]
  obtain ⟨printed, hprinted⟩ := Option.ne_none_iff_exists'.1 hencodes
  refine ⟨printed, hprinted, ?_⟩
  rw [lower, mapM_eq_ok h]
  simp [bind, pure, Console.ofFailing, Console.print, hprinted, Function.comp_def]

theorem lower_findings_of_error {before after : List Text} {s : Text} {failure : Failure}
    (hbefore : ∀ b ∈ before, ∃ found, findings system b = .ok found)
    (hs : findings system s = .error failure) :
    lower system (before ++ s :: after) true = ⟨"", "", .error failure⟩ := by
  rw [lower, mapM_eq_error hbefore hs]
  rfl

theorem failed_of_lines {s : Text} {failed : Bool} (h : (lines system s).result = .ok failed) :
    ∃ r, system.lowerFile (sourceName s) = .ok r ∧ failed = r.hasErrors := by
  obtain ⟨r, hr, h⟩ := Console.result_bind_eq_ok.1 h
  obtain ⟨_, -, h⟩ := Console.result_bind_eq_ok.1 h
  cases h
  exact ⟨r, hr, rfl⟩

theorem failed_of_findings {s : Text} {found : Findings} (h : findings system s = .ok found) :
    ∃ r, system.lowerFile (sourceName s) = .ok r ∧ found.failed = r.hasErrors ∧
      (found.failed = true ↔ ∃ d ∈ found.diagnostics, d.IsError) := by
  obtain ⟨r, hr, h⟩ := bind_eq_ok.1 h
  exact ⟨r, hr, Report.failed_findings h⟩

theorem printsObject_lower {found : Text → Findings}
    (h : ∀ s ∈ sources, findings system s = .ok (found s)) :
    (lower system sources true).PrintsObject (sources.flatMap fun s => (found s).diagnostics)
      (sources.flatMap fun s => (found s).lowered) := by
  obtain ⟨printed, hprinted, hlower⟩ := lower_findings_of_ok found h
  refine ⟨_, ?_, congrArg Console.result hlower, congrArg Console.stderr hlower, ?_⟩
  · have hfailed s (hs : s ∈ sources) := (failed_of_findings (h s hs)).choose_spec.2.2
    simp only [exitCode_eq_one, List.mem_flatMap]
    constructor
    · rintro ⟨s, hs, herror⟩
      obtain ⟨d, hd, herror⟩ := (hfailed s hs).1 herror
      exact ⟨d, ⟨s, hs, hd⟩, herror⟩
    · rintro ⟨d, ⟨s, hs, hd⟩, herror⟩
      exact ⟨s, hs, (hfailed s hs).2 ⟨d, hd, herror⟩⟩
  · rw [hlower, ← hprinted]
    simp [Findings.json, Json.ofRun, List.flatMap_map, Function.comp_def]

theorem lines_cutOff_or_gathers (system : System) (sources : List Text) :
    IsCutOff system false (lower system sources false) (fun s => lower system [s] false) sources ∨
      Gathers false (lower system sources false) (fun s => lower system [s] false) sources := by
  -- Either every source is gone through, or there is a first one that fails.
  obtain hok | ⟨before, s, after, failure, rfl, hbefore, hs⟩ :=
    forall_ok_or_first_error (fun s => (lines system s).result) sources
  · choose! failed hfailed using hok
    have halone s (hs : s ∈ sources) :
        (lower system [s] false).result = .ok (exitCode [failed s]) := by
      rw [(lower_single s).2.2, hfailed s hs]
      rfl
    have hwhole := lower_lines_of_ok failed hfailed
    refine .inr (gathers_of_ends halone (congrArg Console.result hwhole) (fun _ => ?_) nofun)
    constructor <;> simp [hwhole, Function.comp_def, lower_single]
  · refine .inl (.intro (stopsRun_of_lines hs) (fun b hb => ?_) ?_ ?_ (fun _ => ?_) nofun)
    · obtain ⟨failed, hfailed⟩ := hbefore b hb
      exact ⟨exitCode [failed], by rw [(lower_single b).2.2, hfailed]; rfl⟩
    · rw [(lower_single s).2.2, hs]
      rfl
    · rw [lower_lines_of_error hbefore hs]
    · constructor <;> simp [lower_lines_of_error hbefore hs, Function.comp_def, lower_single]

theorem findings_cutOff_or_gathers (system : System) (sources : List Text) :
    IsCutOff system true (lower system sources true) (fun s => lower system [s] true) sources ∨
      Gathers true (lower system sources true) (fun s => lower system [s] true) sources := by
  obtain hok | ⟨before, s, after, failure, rfl, hbefore, hs⟩ :=
    forall_ok_or_first_error (findings system) sources
  · have : Nonempty Findings := ⟨⟨false, [], []⟩⟩
    choose! found hfound using hok
    have hsingle s (hs : s ∈ sources) : ∀ t ∈ [s], findings system t = .ok (found t) :=
      List.forall_mem_singleton.2 (hfound s hs)
    have halone s (hs : s ∈ sources) :
        (lower system [s] true).result = .ok (exitCode [(found s).failed]) := by
      obtain ⟨printed, -, hlower⟩ := lower_findings_of_ok found (hsingle s hs)
      exact congrArg Console.result hlower
    obtain ⟨printed, -, hwhole⟩ := lower_findings_of_ok found hfound
    refine .inr (gathers_of_ends halone (congrArg Console.result hwhole) nofun fun _ =>
      ⟨_, _, fun s hs => ?_, printsObject_lower hfound⟩)
    simpa using printsObject_lower (hsingle s hs)
  -- Nothing is printed before all sources are read, so the failure leaves both outputs empty.
  · have hstopped : lower system ([] ++ [s]) true = ⟨"", "", .error failure⟩ :=
      lower_findings_of_error (List.forall_mem_nil _) hs
    have hwhole : lower system (before ++ s :: after) true = ⟨"", "", .error failure⟩ :=
      lower_findings_of_error hbefore hs
    refine .inl (.intro (stopsRun_of_findings hs) (fun b hb => ?_)
      (congrArg Console.result hstopped) (congrArg Console.result hwhole) nofun fun _ =>
        ⟨congrArg Console.stdout hwhole, congrArg Console.stderr hwhole⟩)
    obtain ⟨found, hfound⟩ := hbefore b hb
    obtain ⟨printed, -, hlower⟩ :=
      lower_findings_of_ok (fun _ => found) (List.forall_mem_singleton.2 hfound)
    exact ⟨_, congrArg Console.result hlower⟩

/-- The exit code is the same, whether or not JSON is printed. -/
theorem exitCode_lower {code code' : Nat} (h : (lower system sources false).result = .ok code)
    (h' : (lower system sources true).result = .ok code') : code = code' := by
  have : Nonempty Findings := ⟨⟨false, [], []⟩⟩
  obtain hok | ⟨before, s, after, failure, rfl, hbefore, hs⟩ :=
    forall_ok_or_first_error (fun s => (lines system s).result) sources
  · obtain hok' | ⟨before, s, after, failure, rfl, hbefore, hs⟩ :=
      forall_ok_or_first_error (findings system) sources
    · choose! failed hfailed using hok
      choose! found hfound using hok'
      obtain ⟨printed, -, hlower⟩ := lower_findings_of_ok found hfound
      rw [lower_lines_of_ok failed hfailed] at h
      rw [hlower] at h'
      cases h
      cases h'
      refine congrArg exitCode (List.map_congr_left fun s hs => ?_)
      obtain ⟨r, hr, hlines⟩ := failed_of_lines (hfailed s hs)
      obtain ⟨r', hr', hfindings, -⟩ := failed_of_findings (hfound s hs)
      cases hr.symm.trans hr'
      rw [hlines, hfindings]
    · rw [lower_findings_of_error hbefore hs] at h'
      cases h'
  · rw [lower_lines_of_error hbefore hs] at h
    cases h

end Run

theorem run_eq_of_lower {args sources : List Text} {json : Bool}
    (h : Request.ofArguments args = .ok (.lower sources json)) (system : System) :
    run system args = Run.lower system sources json := by
  rw [run, h]

section

variable {sources : List Text} {args : Bool → List Text} {single : Bool → Text → List Text}

/-- A run over several sources prints what the runs over the single sources print, one behind the
other, and ends with 0 or 1, unless one of these runs fails: then the first of the failing sources
stops the run over all of them. No run fails for another reason than those in `StopsRun`; so a
source that is missing or has errors hides nothing of what is found in the others. The exit code
does not depend on whether JSON is printed. -/
theorem run_gathers (system : System)
    (hargs : ∀ json, Request.ofArguments (args json) = .ok (.lower sources json))
    (hsingle : ∀ json, ∀ s ∈ sources,
      Request.ofArguments (single json s) = .ok (.lower [s] json)) :
    (∀ json,
      IsCutOff system json (run system (args json)) (fun s => run system (single json s)) sources ∨
        Gathers json (run system (args json)) (fun s => run system (single json s)) sources) ∧
    ∀ code code', (run system (args false)).result = .ok code →
      (run system (args true)).result = .ok code' → code = code' := by
  have halone json s (hs : s ∈ sources) : Run.lower system [s] json = run system (single json s) :=
    (run_eq_of_lower (hsingle json s hs) system).symm
  refine ⟨fun json => ?_, fun code code' h h' => ?_⟩
  · rw [run_eq_of_lower (hargs json)]
    cases json with
    | false =>
      exact (Run.lines_cutOff_or_gathers system sources).imp (·.congr (halone false))
        (·.congr (halone false))
    | true =>
      exact (Run.findings_cutOff_or_gathers system sources).imp (·.congr (halone true))
        (·.congr (halone true))
  · rw [run_eq_of_lower (hargs _)] at h h'
    exact Run.exitCode_lower h h'

/-- A source with one literal. -/
def sampleSource : String := "f(i\"$y\");\n"

/-- A directory with this source and a file whose bytes are no text. -/
def sampleSystem : System :=
  { read := (FileTree.ofFiles [("bad.src", ⟨#[0xff]⟩), ("good.src", sampleSource.toUTF8)]).read }

theorem parseProgram_sampleSource : parseProgram sampleSource =
    .ok [.evaluate ⟨1, 1⟩ (.call ⟨1, 1⟩ (.name ⟨1, 1⟩ ['f'])
      [.interpolation ⟨⟨1, 3⟩, .interspersed, ⟨[('$', ⟨1, 5⟩), ('y', ⟨1, 6⟩)], ⟨1, 7⟩⟩⟩])] := by
  have htokens : (Lexed.ofText sampleSource).tokens = [⟨.name, ['f'], 0, ⟨1, 1⟩⟩,
      ⟨.mark .lparen, ['('], 1, ⟨1, 2⟩⟩,
      ⟨.interpolatedLit, ['i', '"', '$', 'y', '"'], 2, ⟨1, 3⟩⟩,
      ⟨.mark .rparen, [')'], 7, ⟨1, 8⟩⟩, ⟨.mark .semicolon, [';'], 8, ⟨1, 9⟩⟩] := by
    decide +kernel
  exact parseProgram_callLiteral (by decide +kernel) htokens rfl rfl rfl rfl rfl rfl

/-- What is found in the source. -/
def sampleReport : Report where
  source := "good.src"
  log := { sites := [⟨⟨1, 1⟩, .call ⟨1, 1⟩ (.name ⟨1, 1⟩ ['f']) [.name ⟨1, 6⟩ ['y']],
    [[.value .expression ['y'] (.name ⟨1, 6⟩ ['y'])]]⟩] }

theorem lowerFile_sampleSource :
    sampleSystem.lowerFile (sourceName "good.src") = .ok sampleReport := by
  have hname : sourceName "good.src" = "good.src" := by decide +kernel
  have hlower : lowerText (sourceName "good.src") sampleSource = .ok sampleReport.log := by
    rw [hname, lowerText, readSource, parseProgram_sampleSource]
    rfl
  have hholds : sampleSystem.Holds "good.src" sampleSource :=
    ⟨by decide +kernel, sampleSource.toUTF8, by decide +kernel, by decide +kernel⟩
  rw [System.lowerFile_of_holds hholds rfl hlower, hname]
  rfl

theorem lines_sampleSource :
    Run.lines sampleSystem "good.src" = ⟨"good.src:1:1: f(y)\n", "", .ok false⟩ := by
  rw [Run.lines, lowerFile_sampleSource]
  decide +kernel

theorem lower_sampleSource (json : Bool) :
    ∃ code, (Run.lower sampleSystem ["good.src"] json).result = .ok code := by
  cases json with
  | false => exact ⟨0, by rw [(Run.lower_single _).2.2, lines_sampleSource]; rfl⟩
  | true =>
    have hfindings : ∃ found, Run.findings sampleSystem "good.src" = .ok found := by
      rw [Run.findings, lowerFile_sampleSource]
      exact ⟨_, rfl⟩
    obtain ⟨found, hfound⟩ := hfindings
    obtain ⟨printed, -, hlower⟩ :=
      Run.lower_findings_of_ok (fun _ => found) (List.forall_mem_singleton.2 hfound)
    exact ⟨_, congrArg Console.result hlower⟩

theorem run_sampleSource :
    run sampleSystem ["good.src"] = ⟨"good.src:1:1: f(y)\n", "", .ok 0⟩ := by
  have hargs : Request.ofArguments ["good.src"] = .ok (.lower ["good.src"] false) := by
    decide +kernel
  rw [run_eq_of_lower hargs, Run.lower, List.mapM_cons, lines_sampleSource]
  decide +kernel

theorem run_gathers_missing :
    let sources : List Text := ["gone.src", "good.src", "."]
    let args (json : Bool) := OptionName.jsonArguments json ++ sources
    let single (json : Bool) (s : Text) := OptionName.jsonArguments json ++ [s]
    (∀ json, Request.ofArguments (args json) = .ok (.lower sources json)) ∧
      (∀ json, ∀ s ∈ sources, Request.ofArguments (single json s) = .ok (.lower [s] json)) ∧
      (∀ json, Gathers json (run sampleSystem (args json))
        (fun s => run sampleSystem (single json s)) sources) ∧
      run sampleSystem (single false "good.src") = ⟨"good.src:1:1: f(y)\n", "", .ok 0⟩ := by
  intro sources args single
  have hsource : ∀ s ∈ sources, Word.ofArgument s = .ok (.source s) := by decide
  have hargs := Request.ofArguments_sources (List.cons_ne_nil _ _) hsource
  have hsingle (json : Bool) (s : Text) (hs : s ∈ sources) :=
    Request.ofArguments_sources (List.cons_ne_nil s [])
      (List.forall_mem_singleton.2 (hsource s hs)) json
  refine ⟨hargs, hsingle, fun json => ?_, run_sampleSource⟩
  refine ((run_gathers sampleSystem hargs hsingle).1 json).resolve_left fun hcut => ?_
  -- Each of the single runs ends, so none of them cuts off the run over all.
  have hends : ∀ s ∈ sources, ∃ code, (Run.lower sampleSystem [s] json).result = .ok code := by
    refine List.forall_mem_cons.2 ⟨⟨1, ?_⟩, List.forall_mem_cons.2 ⟨lower_sampleSource json,
      List.forall_mem_singleton.2 ⟨1, ?_⟩⟩⟩
    all_goals cases json <;> decide +kernel
  obtain ⟨s, hs, failure, hfails⟩ := hcut.exists_failing
  obtain ⟨code, hcode⟩ := hends s hs
  rw [run_eq_of_lower (hsingle json s hs), hcode] at hfails
  cases hfails

/-- A file that is no text hides what is found in another one, and that a third one is missing. -/
theorem run_hides :
    run sampleSystem ["bad.src", "good.src", "gone.src"] = ⟨"", "", .error .notText⟩ ∧
      run sampleSystem ["good.src"] = ⟨"good.src:1:1: f(y)\n", "", .ok 0⟩ ∧
      run sampleSystem ["gone.src"] =
        ⟨"", "gone.src:?:?: error: cannot read source: No such file or directory\n", .ok 1⟩ :=
  ⟨by decide +kernel, run_sampleSource, by decide +kernel⟩

end

end Splice
