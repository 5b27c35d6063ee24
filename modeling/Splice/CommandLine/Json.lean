import Splice.Text.Quoted

/-!
# JSON texts

Values and their text on one line: a comma and a space between members, a colon and a space behind
keys, and only printable ASCII characters.
-/

namespace Splice

/-- A JSON value. The members of an object keep their order. -/
inductive Json
  | null
  | number (n : Int)
  | string (t : Text)
  | array (items : List Json)
  | object (members : List (Text × Json))
deriving Inhabited

namespace Json

/-- A value that may be missing. -/
def ofOption {α : Type} (f : α → Json) : Option α → Json
  | none => .null
  | some a => f a

/-- An escape of four hexadecimal digits. -/
def escapeUnit (n : Nat) : Text := '\\' :: 'u' :: hexDigits 4 n

/-- A character inside a string. One above `U+FFFF` is written as two surrogates. -/
def escapeChar (c : CodePoint) : Text :=
  match c with
  | '"' => ['\\', '"']
  | '\\' => ['\\', '\\']
  | '\n' => ['\\', 'n']
  | '\r' => ['\\', 'r']
  | '\t' => ['\\', 't']
  | '\x08' => ['\\', 'b']
  | '\x0c' => ['\\', 'f']
  | _ =>
    let n := c.toNat
    if 0x20 ≤ n ∧ n < 0x7f then [c]
    else if n < 0x10000 then escapeUnit n
    else escapeUnit (0xd800 + (n - 0x10000) / 0x400) ++ escapeUnit (0xdc00 + (n - 0x10000) % 0x400)

/-- A string between quotes. -/
def quoted (t : Text) : Text := "\"" ++ t.flatMap escapeChar ++ "\""

mutual

/-- The text of a value. -/
def text : Json → Text
  | null => "null"
  | number n => toString n
  | string t => quoted t
  | array items => "[" ++ itemsText items ++ "]"
  | object members => "\x7b" ++ membersText members ++ "\x7d"

/-- The texts of items, with commas between them. -/
def itemsText : List Json → Text
  | [] => []
  | [item] => item.text
  | item :: rest => item.text ++ ", " ++ itemsText rest

/-- The texts of members, with commas between them. -/
def membersText : List (Text × Json) → Text
  | [] => []
  | [(key, value)] => quoted key ++ ": " ++ value.text
  | (key, value) :: rest =>
    quoted key ++ ": " ++ value.text ++ ", " ++ membersText rest

end

end Json

end Splice
