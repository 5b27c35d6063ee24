import Splice.Body.Rejection
import Splice.Grammar.Lexeme

/-!
# The end of a group

A group ends at the parenthesis that matches its opening one. Literals and comments inside the
group are passed over, so parentheses in them do not count. A backslash in a literal takes any
character with it.

* `Closing.passage`: a literal or comment at the start of a text.
* `Closing.distance`: how many characters stand before the closing parenthesis.
* `closeGroup`: the text of a group and the offset of its closing parenthesis.
-/

namespace Splice

namespace Closing

/-- The length of what is passed over at the start of a text, if something is. -/
def passage : Text → Option (Except Unclosed Nat)
  | '"' :: rest => some (close .string 1 (Quoted.tail (fun _ => true) '"' rest))
  | '\'' :: rest => some (close .character 1 (Quoted.tail (fun _ => true) '\'' rest))
  | '`' :: rest => some (close .rawString 1 (lengthThrough ['`'] rest))
  | '/' :: '/' :: rest =>
    let line := lengthWhile (· ≠ '\n') rest
    some (.ok (2 + min (line + 1) rest.length))
  | '/' :: '*' :: rest => some (close .blockComment 2 (lengthThrough ['*', '/'] rest))
  | _ => none
where
  /-- The length of something that opened with `opening` characters, if it was closed. -/
  close (what : Unclosed) (opening : Nat) : Option Nat → Except Unclosed Nat
    | some n => .ok (opening + n)
    | none => .error what

/-- The number of characters before the parenthesis that closes a group. Of the text, the first
`pending` characters are passed over, and `depth` parentheses have been opened in the group. -/
def distance : Text → (pending depth : Nat) → Except Unclosed Nat
  | [], _, _ => .error .group
  | _ :: rest, pending + 1, depth => (distance rest pending depth).map (· + 1)
  | c :: rest, 0, depth =>
    match passage (c :: rest) with
    | some (.ok n) => (distance rest (n - 1) depth).map (· + 1)
    | some (.error what) => .error what
    | none =>
      if c = '(' then (distance rest 0 (depth + 1)).map (· + 1)
      else if c = ')' then
        match depth with
        | 0 => .ok 0
        | depth + 1 => (distance rest 0 depth).map (· + 1)
      else (distance rest 0 depth).map (· + 1)

end Closing

/-- The text of the group that starts at the offset `start` of a body, and the offset of the
parenthesis that closes it. The group is rejected from `opener` on, the place of its dollar
sign. -/
def closeGroup (body : Text) (start : Nat) (opener : Int) : Except Rejection (Text × Nat) :=
  match Closing.distance (body.drop start) 0 0 with
  | .ok n => .ok ((body.drop start).take n, start + n)
  | .error what =>
    .error { cause := .unclosed what, start := some opener, stop := some body.length }

end Splice
