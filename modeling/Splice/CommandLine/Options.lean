import Splice.Text.Digit
import Splice.Text.Quoted

/-!
# Arguments of the command line

The program takes the names of one or more sources and two options, which may be shortened as long
as they stay distinct. Everything behind `--` is a source. The sources have to stand together: what
stands behind an option that came after a source is not recognized.

* `Word.ofArgument`: what an argument is, on its own.
* `Request.ofArguments`: what the arguments ask for.
-/

namespace Splice

/-- The options. -/
inductive OptionName
  | help | json
deriving DecidableEq, Inhabited

namespace OptionName

/-- The spellings of the options, in the order in which they are declared. -/
def spellings : List (Text × OptionName) :=
  [("-h", .help), ("--help", .help), ("--json", .json)]

/-- The name of the option in errors. -/
def label : OptionName → Text
  | help => "-h/--help"
  | json => "--json"

end OptionName

/-- What is wrong with the arguments. -/
inductive UsageError
  /-- A shortened option that could be several. -/
  | ambiguous (arg : Text) (matching : List Text)
  /-- A value for an option that takes none. -/
  | unusedValue (option : OptionName) (value : Text)
  | noSource
  | unrecognized (args : List Text)
deriving DecidableEq, Inhabited

namespace UsageError

/-- The wording of each error. -/
def message : UsageError → Text
  | ambiguous arg matching =>
    "ambiguous option: " ++ arg ++ " could match " ++ List.intercalate ", " matching
  | unusedValue option value =>
    "argument " ++ option.label ++ ": ignored explicit argument " ++
      Text.display value
  | noSource => "the following arguments are required: source"
  | unrecognized args => "unrecognized arguments: " ++ List.intercalate " " args

end UsageError

/-- What an argument is. -/
inductive Word
  /-- The name of a source. -/
  | source (arg : Text)
  /-- `--`, behind which everything is a source. -/
  | separator
  /-- An option, with a value if there is one behind an equals sign. -/
  | flag (name : OptionName) (value : Option Text)
  /-- An option of one letter, with other letters behind it. -/
  | cluster (name : OptionName) (letters : Text)
  /-- An argument that looks like an option but is none. -/
  | unknown (arg : Text)
deriving DecidableEq, Inhabited

namespace Word

/-- The argument before its first `=`, and what stands behind that. -/
def splitValue (arg : Text) : Text × Option Text :=
  let name := arg.takeWhile fun c : CodePoint => c ≠ '='
  (name, if name.length = arg.length then none else some (arg.drop (name.length + 1)))

/-- The option that a spelling names, if it names one. -/
def optionOf? (spelling : Text) : Option OptionName :=
  OptionName.spellings.lookup spelling

/-- A negative number in decimal notation. A line feed may stand behind it. -/
def isNegativeNumber : Text → Bool
  | '-' :: rest =>
    match rest.dropWhile isDecimal with
    | [] | ['\n'] => (rest.head?).any isDecimal
    | '.' :: fraction =>
      (fraction.head?).any isDecimal &&
        (fraction.dropWhile isDecimal = [] || fraction.dropWhile isDecimal = (['\n'] : Text))
    | _ => false
  | _ => false

/-- The long options that a shortened one could be. -/
def matching (shortened : Text) : List (Text × OptionName) :=
  OptionName.spellings.filter fun (spelling, _) =>
    shortened.isPrefixOf spelling

/-- What an argument that starts with a hyphen is, if it is not spelled like an option. -/
def ofHyphenated (arg : Text) : Except UsageError Word :=
  let (name, value) := splitValue arg
  let other : Word :=
    if isNegativeNumber arg || arg.contains ' ' then .source arg else .unknown arg
  match value, optionOf? name with
  | some v, some option => .ok (.flag option (some v))
  | _, _ =>
    match arg with
    | '-' :: '-' :: _ =>
      match matching name with
      | [] => .ok other
      | [(_, option)] => .ok (.flag option value)
      | several => .error (.ambiguous arg (several.map (·.1)))
    | _ =>
      match optionOf? (arg.take 2) with
      | some option => .ok (.cluster option (arg.drop 2))
      | none => .ok other

/-- What an argument is that stands before any separator. -/
def ofArgument (arg : Text) : Except UsageError Word :=
  match arg with
  | ['-'] => .ok (.source arg)
  | '-' :: rest =>
    if rest = (['-'] : Text) then .ok .separator
    else match optionOf? ('-' :: rest) with
      | some option => .ok (.flag option none)
      | none => ofHyphenated ('-' :: rest)
  | _ => .ok (.source arg)

/-- What the arguments are. -/
def ofArguments : List Text → Except UsageError (List Word)
  | [] => .ok []
  | arg :: rest => do
    match ← ofArgument arg with
    | .separator => return .separator :: rest.map .source
    | word => return word :: (← ofArguments rest)

/-- The argument of a word that is no option. -/
def plain : Word → Text
  | source arg | unknown arg => arg
  | separator | flag _ _ | cluster _ _ => "--"

end Word

/-- What the arguments ask for. -/
inductive Request
  | help
  | lower (sources : List Text) (json : Bool)
deriving DecidableEq, Inhabited

/-- What is known after some of the arguments. -/
structure Reading where
  sources : List Text := []
  json : Bool := false
  /-- The arguments that have no place. -/
  extra : List Text := []
deriving Inhabited

namespace Reading

/-- Takes a row of sources, in which a separator may stand. Only the first row with a source in it
is taken; its separator is dropped. -/
def takeRow (r : Reading) (row : List Word) : Reading :=
  let isSource : Word → Bool
    | .source _ => true
    | _ => false
  if r.sources.isEmpty && row.any isSource then
    { r with sources := (row.filter isSource).map Word.plain }
  else { r with extra := r.extra ++ row.map Word.plain }

/-- Refuses a value, since no option takes one. -/
def refuseValue (option : OptionName) : Option Text → Except UsageError Unit
  | none => .ok ()
  | some value => .error (.unusedValue option value)

/-- Refuses letters behind the letter of an option if they begin with a hyphen, or if an equals
sign follows the last letter that is the option's own. Other letters are of no consequence, since
the only option of one letter is the one for help. -/
def refuseLetters (option : OptionName) : Text → Except UsageError Unit
  | '-' :: rest => .error (.unusedValue option ('-' :: rest))
  | 'h' :: '=' :: rest => .error (.unusedValue option rest)
  | 'h' :: rest => refuseLetters option rest
  | _ => .ok ()

/-- Goes on behind an option. -/
def next (r : Reading) (rest : Reading → Except UsageError Request) :
    OptionName → Except UsageError Request
  | .help => .ok .help
  | .json => rest { r with json := true }

/-- Goes through the words. `row` holds the sources since the last option, last one first. -/
def words (r : Reading) (row : List Word) : List Word → Except UsageError Request
  | [] =>
    let r := r.takeRow row.reverse
    if r.sources.isEmpty then .error .noSource
    else if r.extra.isEmpty then .ok (.lower r.sources r.json)
    else .error (.unrecognized r.extra)
  | .flag option value :: rest => do
    refuseValue option value
    (r.takeRow row.reverse).next (words · [] rest) option
  | .cluster option letters :: rest => do
    refuseLetters option letters
    (r.takeRow row.reverse).next (words · [] rest) option
  | .unknown arg :: rest =>
    let r := r.takeRow row.reverse
    words { r with extra := r.extra ++ [arg] } [] rest
  | word :: rest => words r (word :: row) rest

end Reading

/-- What the arguments ask for, or what is wrong with them. -/
def Request.ofArguments (args : List Text) : Except UsageError Request := do
  let words ← Word.ofArguments args
  Reading.words {} [] words

end Splice
