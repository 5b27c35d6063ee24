import Splice.Source.PlacedText

/-!
# Escapes in literals

The text between the quotes of a host literal is read item by item: an escape sequence, which
starts with a backslash, or any other character, which stands for itself. The escapes are
`\n \t \r \0 \\ \" \'`, `\x` with two hexadecimal digits, and `\u{…}` with the digits of a code
point.

* `Escape.read`: the character that an escape names, and how far the escape reaches.
* `Escape.decode`: the decoded text, each character placed where its item begins; a fault is
  placed at its backslash.
-/

namespace Splice

/-- Why a backslash begins no escape. -/
inductive EscapeFault
  /-- Nothing follows the backslash. -/
  | dangling
  /-- `\x` without two hexadecimal digits. -/
  | badByte
  /-- `\u` without the digits of a code point in braces. -/
  | badCodePoint
  /-- The character after the backslash begins no escape. -/
  | unknown (c : CodePoint)
deriving DecidableEq, Inhabited

namespace EscapeFault

/-- The wording of each fault. -/
def message : EscapeFault → Text
  | dangling => "dangling '\\' at end of literal"
  | badByte => "'\\x' escape requires exactly two hex digits"
  | badCodePoint => "'\\u' escape must be of the form \\u\x7bH...\x7d naming a code point"
  | unknown c => "unknown escape sequence '\\" ++ [c] ++ "'"

end EscapeFault

/-- The value of a hexadecimal digit, of either case. -/
def hexValue? (c : CodePoint) : Option Nat :=
  let n := c.toNat
  if 0x30 ≤ n ∧ n ≤ 0x39 then some (n - 0x30)
  else if 0x41 ≤ n ∧ n ≤ 0x46 then some (n - 0x41 + 10)
  else if 0x61 ≤ n ∧ n ≤ 0x66 then some (n - 0x61 + 10)
  else none

/-- The number that hexadecimal digits write, if every character is one. -/
def hexNumber? (t : Text) : Option Nat :=
  t.foldlM (fun n c => (hexValue? c).map (n * 16 + ·)) 0

namespace Escape

/-- The escapes of one letter, and the characters they name. -/
def simple : List (CodePoint × CodePoint) :=
  [('n', '\n'), ('t', '\t'), ('r', '\r'), ('0', '\x00'), ('\\', '\\'), ('"', '"'), ('\'', '\'')]

/-- Reads what follows a backslash: the character named, and the number of characters that the
escape takes with its backslash. -/
def read : Text → Except EscapeFault (CodePoint × Nat)
  | [] => .error .dangling
  | 'x' :: rest =>
    match rest.take 2 with
    | [high, low] =>
      match hexNumber? [high, low] with
      | some n => .ok (CodePoint.ofNat n, 4)
      | none => .error .badByte
    | _ => .error .badByte
  | 'u' :: rest =>
    match rest with
    | '{' :: inner =>
      let digits : Text := inner.takeWhile (· ≠ '}')
      if digits = [] ∨ digits.length = inner.length then .error .badCodePoint
      else match hexNumber? digits with
        | some n =>
          if n ≤ 0x10ffff then .ok (CodePoint.ofNat n, digits.length + 4)
          else .error .badCodePoint
        | none => .error .badCodePoint
    | _ => .error .badCodePoint
  | c :: _ =>
    match simple.lookup c with
    | some named => .ok (named, 2)
    | none => .error (.unknown c)

/-- Decodes the rest of a literal, of which the first `pending` characters belong to an escape
that was read already, and `loc` is the place of the next one. -/
def decodeFrom : Text → (pending : Nat) → Loc → Except (EscapeFault × Loc) PlacedText
  | [], _, loc => .ok ⟨[], loc⟩
  | c :: rest, pending + 1, loc => decodeFrom rest pending (loc.advance c)
  | c :: rest, 0, loc =>
    if c = '\\' then
      match read rest with
      | .ok (named, width) =>
        (decodeFrom rest (width - 1) (loc.advance c)).map (.cons named loc)
      | .error fault => .error (fault, loc)
    else (decodeFrom rest 0 (loc.advance c)).map (.cons c loc)

/-- Decodes the text between the quotes of a literal, which starts at `loc`. The end of the
placed text is where the closing quote stands. -/
def decode (raw : Text) (loc : Loc) : Except (EscapeFault × Loc) PlacedText :=
  decodeFrom raw 0 loc

end Escape

end Splice
