import Splice.Body.Context
import Splice.Body.Resolve
import Splice.Body.Scan
import Splice.Syntax.Printer

/-!
# Lowering a literal

The segments of a literal become an argument list. Texts and doubled dollar signs between two
insertions are joined first. An interspersed literal lowers to its texts, as far as they are not
empty, and its insertions in the order of the body; a format string lowers to all its texts as one
string, which may be empty, and then its insertions.

* `Runs.ofSegments`: texts and insertions in turn.
* `interspersed`, `formatted`: the two argument lists.
* `Argument.writeList`: an argument list as it is written in a call.
* `Interpolation.lower`: lowers a literal where it stands, or reports why it cannot be lowered.
-/

namespace Splice

/-- Texts and insertions in turn, beginning and ending with a text. -/
structure Runs where
  first : Text
  rest : List (Insertion × Text)
deriving Inhabited

namespace Runs

/-- Joins the texts and dollar signs between the insertions. -/
def ofSegments : List Segment → Runs
  | [] => ⟨[], []⟩
  | .text t _ _ :: later =>
    let runs := ofSegments later
    { runs with first := t ++ runs.first }
  | .dollar _ _ :: later =>
    let runs := ofSegments later
    { runs with first := '$' :: runs.first }
  | .insertion i :: later =>
    let runs := ofSegments later
    ⟨[], (i, runs.first) :: runs.rest⟩

/-- The texts alone. -/
def texts (runs : Runs) : List Text := runs.first :: runs.rest.map (·.2)

/-- The insertions alone. -/
def insertions (runs : Runs) : List Insertion := runs.rest.map (·.1)

end Runs

namespace Insertion

/-- The argument of a resolved insertion. -/
def argument : Insertion → Except Failure Argument
  | name ident _ _ node =>
    if node.isMissing then .error .unresolvedName else .ok (.value .expression ident node)
  | group raw _ _ role node =>
    match role with
    | some role =>
      if node.isMissing then .error .unclassifiedGroup else .ok (.value role raw node)
    | none => .error .unclassifiedGroup

end Insertion

namespace Argument

/-- A text as an argument, unless it is empty. -/
def ofText? (t : Text) : List Argument := if t = [] then [] else [.text t]

/-- The source form of an argument, or why it has none. -/
def write : Argument → Except Failure Text
  | text t => .ok (quote t)
  | value _ _ node => node.writeExpr

/-- An argument list as it is written in a call. -/
def writeList (args : List Argument) : Except Failure Text := do
  let texts ← args.mapM write
  return commaSeparated texts

end Argument

namespace Runs

/-- The arguments behind the first text of an interspersed literal. -/
def interspersedRest : List (Insertion × Text) → Except Failure (List Argument)
  | [] => .ok []
  | (i, t) :: rest => do
    let argument ← i.argument
    let later ← interspersedRest rest
    return argument :: Argument.ofText? t ++ later

/-- The arguments of an interspersed literal. -/
def interspersed (runs : Runs) : Except Failure (List Argument) := do
  let later ← interspersedRest runs.rest
  return Argument.ofText? runs.first ++ later

/-- The arguments of a format string. -/
def formatted (runs : Runs) : Except Failure (List Argument) := do
  let values ← runs.insertions.mapM Insertion.argument
  return .text runs.texts.flatten :: values

/-- The arguments of a literal of some kind. -/
def arguments (runs : Runs) : InterpolationKind → Except Failure (List Argument)
  | .interspersed => runs.interspersed
  | .formatted => runs.formatted

end Runs

/-- The arguments that resolved segments lower to. -/
def lowerSegments (segments : List Segment) (kind : InterpolationKind) :
    Except Failure (List Argument) :=
  (Runs.ofSegments segments).arguments kind

/-! ## Reporting -/

namespace Interpolation

/-- Where the character at an offset of the body stands in the source. -/
def locate (i : Interpolation) : Locate := i.body.locate

/-- The stretch of source between two offsets of the body. It covers at least one character, and
it ends behind the closing quote if it goes beyond the body. Without a start it is the whole
literal. -/
def span (i : Interpolation) (file : Option Text) (start stop : Option Int) : Span :=
  match start with
  | none => .between file i.loc i.stop
  | some first =>
    let last := match stop with
      | some last => if last ≤ first then first + 1 else last
      | none => first + 1
    let size : Int := i.body.chars.length
    .between file (i.locate first) (if size < last then i.stop else i.locate last)

/-- The report of a rejection. -/
def diagnostic (i : Interpolation) (file : Option Text) (r : Rejection) : Diagnostic :=
  let anchor : List Text := r.anchor.elim [] fun offset =>
    let loc := i.locate offset
    ["escape starts at " ++ toString loc.line ++ ":" ++ toString loc.column]
  .ofFault r.cause.fault r.cause.message (i.span file r.start r.stop) (anchor ++ r.notes)

end Interpolation

/-! ## The whole way -/

/-- A lowered literal: its resolved segments, and the arguments. -/
structure Lowering where
  segments : List Segment
  args : List Argument
deriving Inhabited

namespace Interpolation

/-- Lowers a literal that stands in a context. -/
def attempt (i : Interpolation) (context : Context) (parsers : FragmentParsers) :
    Attempt Lowering := do
  let found ← Attempt.ofRejecting (segments i.body.text)
  let resolved ← Segment.resolve parsers (some i.locate) found
  Attempt.ofRejecting (context.check i.kind)
  let args ← Attempt.ofFailing (lowerSegments resolved i.kind)
  return { segments := resolved, args }

/-- Lowers a literal that stands in a context, or reports the first thing that is wrong. -/
def lower (i : Interpolation) (context : Context) (parsers : FragmentParsers)
    (file : Option Text) : Except Failure (Except Diagnostic Lowering) :=
  (i.attempt context parsers).run.map fun
    | .ok lowering => .ok lowering
    | .error r => .error (i.diagnostic file r)

end Interpolation

end Splice
