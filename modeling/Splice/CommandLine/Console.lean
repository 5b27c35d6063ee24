import Splice.Failure
import Splice.Text.Basic

/-!
# Printing

A run prints lines to its two outputs, and what it has printed stays when it fails later. The
standard output takes only what can be encoded, so a line with a surrogate in it is a failure and
nothing of it is printed; the error output writes a surrogate as an escape.

* `Console.print`, `Console.printError`: one line on either output.
* `Console.bind_of_ok`: two steps print what the first one prints, then what the second does.
-/

namespace Splice

namespace Text

/-- The text as a string, unless there is a surrogate in it. -/
def encode? (t : Text) : Option String := (t.mapM CodePoint.toChar?).map String.ofList

/-- A code point as the error output writes it. -/
def escapeSurrogate : CodePoint → List Char
  | .scalar c => [c]
  | .surrogate index => '\\' :: 'u' :: Nat.toDigits 16 (CodePoint.firstSurrogate + index)

/-- The text as a string, with escapes for the surrogates in it. -/
def encodeEscaped (t : Text) : String := String.ofList (t.flatMap escapeSurrogate)

end Text

/-- A result, and what was printed up to it. -/
structure Console (α : Type) where
  stdout : String
  stderr : String
  result : Except Failure α

namespace Console

variable {α β : Type}

instance : Monad Console where
  pure a := ⟨"", "", .ok a⟩
  bind x f :=
    match x.result with
    | .ok a => ⟨x.stdout ++ (f a).stdout, x.stderr ++ (f a).stderr, (f a).result⟩
    | .error e => ⟨x.stdout, x.stderr, .error e⟩

/-- A result that may be a failure. -/
def ofFailing (x : Except Failure α) : Console α := ⟨"", "", x⟩

/-- Prints a line to the standard output. -/
def print (line : Text) : Console Unit :=
  match Text.encode? (line ++ "\n") with
  | some s => ⟨s, "", .ok ()⟩
  | none => ofFailing (.error .notPrintable)

/-- Prints a line to the error output. -/
def printError (line : Text) : Console Unit := ⟨"", Text.encodeEscaped (line ++ "\n"), .ok ()⟩

theorem bind_of_ok {x : Console α} {f : α → Console β} {a : α} (h : x.result = .ok a) :
    x >>= f = ⟨x.stdout ++ (f a).stdout, x.stderr ++ (f a).stderr, (f a).result⟩ := by
  simp only [bind, h]

theorem bind_of_error {x : Console α} {f : α → Console β} {e : Failure} (h : x.result = .error e) :
    x >>= f = ⟨x.stdout, x.stderr, .error e⟩ := by
  simp only [bind, h]

end Console

end Splice
