import Splice.CommandLine.Json
import Splice.Rewrite.Walk

/-!
# Reports

What is said about a source: for people one line for each changed argument list and one for each
diagnostic, with its notes below; for tools one JSON object over all sources. Nodes are written by
a function that may fail, since a tree may be nested deeper than the stack.

* `Report.siteLine`, `Report.diagnosticLines`: the lines for people.
* `Report.findings`: the JSON objects of one source.
* `Findings.json`: the object over all sources.
-/

namespace Splice

/-- How nodes are written. -/
abbrev WriteNode := Node → Except Failure Text

/-- What was found in a source. -/
structure Report where
  source : Text
  log : Log
deriving Inhabited

/-- What tools are told about a source. -/
structure Findings where
  failed : Bool
  diagnostics : List Json
  lowered : List Json

namespace Report

/-- Whether a diagnostic of the source is an error. -/
def hasErrors (r : Report) : Bool := r.log.diagnostics.any Diagnostic.isError

/-- The line for a changed argument list. -/
def siteLine (write : WriteNode) (source : Text) (s : Site) : Except Failure Text := do
  let node ← write s.node
  return source ++ ":" ++ toString s.loc.line ++ ":" ++ toString s.loc.column ++ ": " ++ node

/-- The lines for a diagnostic. -/
def diagnosticLines (source : Text) (d : Diagnostic) : Text :=
  let code : Text := match d.code with
    | none | some "" => ""
    | some code => "[" ++ code ++ "] "
  let notes : Text := d.notes.flatMap fun note => "\n  note: " ++ note
  (d.span.inFile (some source)).describe ++ ": " ++ d.severity ++ ": " ++ code ++ d.message ++ notes

/-- The object of a diagnostic. -/
def diagnosticJson (source : Text) (d : Diagnostic) : Json :=
  let file := match d.span.file with
    | none | some [] => source
    | some file => file
  .object [("phase", .ofOption (fun phase => .string phase) d.phase),
    ("kind", .ofOption (fun code => .string code) d.code), ("message", .string d.message),
    ("severity", .string d.severity), ("file", .string file),
    ("line", .ofOption .number d.span.line), ("column", .ofOption .number d.span.column),
    ("end_line", .ofOption .number d.span.endLine),
    ("end_column", .ofOption .number d.span.endColumn),
    ("notes", .array (d.notes.map .string))]

/-- The object of an argument. -/
def argumentJson (write : WriteNode) : Argument → Except Failure Json
  | .text t => return .object [("kind", .string "string"), ("text", .string t)]
  | .value role source node => do
    let text ← write node
    return .object [("kind", .string "expression"), ("role", .string role.label),
      ("source", .string source), ("text", .string text)]

/-- The object of a changed argument list. -/
def siteJson (write : WriteNode) (source : Text) (s : Site) : Except Failure Json := do
  let call ← write s.node
  let literals ← s.lowered.mapM fun args => args.mapM (argumentJson write)
  return .object [("file", .string source), ("line", .number s.loc.line),
    ("column", .number s.loc.column), ("call", .string call),
    ("literals", .array (literals.map .array))]

/-- What tools are told about the source. -/
def findings (write : WriteNode) (r : Report) : Except Failure Findings := do
  let lowered ← r.log.sites.mapM (siteJson write r.source)
  return { failed := r.hasErrors, lowered,
           diagnostics := r.log.diagnostics.map (diagnosticJson r.source) }

end Report

/-- The exit code of a run, from what failed in it. -/
def exitCode (failed : List Bool) : Nat := if failed.any id then 1 else 0

namespace Findings

/-- The object over all sources. -/
def json (findings : List Findings) : Json :=
  .object [("exit_code", .number (exitCode (findings.map failed))),
    ("diagnostics", .array (findings.flatMap diagnostics)),
    ("lowered", .array (findings.flatMap lowered))]

end Findings

end Splice
