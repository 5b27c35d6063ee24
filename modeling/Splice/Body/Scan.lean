import Splice.Body.Closing
import Splice.Body.Segment

/-!
# Scanning a body

A dollar sign begins an escape: another dollar sign, a name, or a group in parentheses. Texts and
escapes alternate; a text may be empty, and the first and the last segment are texts.

* `Segment.ofDollar`: the escape at a dollar sign.
* `segments`: the segments of a body.
-/

namespace Splice

namespace Segment

/-- The escape that begins with the dollar sign at the offset `dollar`, from the text behind it,
with the number of characters that it takes. -/
def ofDollar (dollar : Nat) : Text → Except Rejection (Segment × Nat)
  | [] => .error { cause := .dollarAtEnd, start := some (dollar + 1), stop := some (dollar + 2),
                   anchor := some dollar }
  | c :: rest =>
    if c = '$' then .ok (.dollar dollar (dollar + 2), 2)
    else if isNameStart c then
      let ident := c :: rest.takeWhile isNamePart
      let length := 1 + ident.length
      .ok (.insertion (.name ident dollar (dollar + length) .missing), length)
    else if c = '(' then
      match Closing.distance rest 0 0 with
      | .ok n =>
        .ok (.insertion (.group (rest.take n) dollar (dollar + n + 3) none .missing), n + 3)
      | .error what =>
        .error { cause := .unclosed what, start := some dollar,
                 stop := some (dollar + 2 + rest.length) }
    else
      .error { cause := .dollarBefore c, start := some (dollar + 1), stop := some (dollar + 2),
               anchor := some dollar }

/-- The segments of a body from the offset `offset` on. Of the text, the first `pending`
characters belong to an escape that was found already; `run` is the text since the last escape,
last character first, and it started at the offset `start`. -/
def scan : Text → (pending offset start : Nat) → (run : Text) → Except Rejection (List Segment)
  | [], _, offset, start, run => .ok [.text run.reverse start offset]
  | _ :: rest, pending + 1, offset, start, run => scan rest pending (offset + 1) start run
  | c :: rest, 0, offset, start, run =>
    if c = '$' then
      match ofDollar offset rest with
      | .ok (segment, length) =>
        (scan rest (length - 1) (offset + 1) (offset + length) []).map fun later =>
          .text run.reverse start offset :: segment :: later
      | .error r => .error r
    else scan rest 0 (offset + 1) start (c :: run)

end Segment

/-- The segments of a body, or the first malformed escape. -/
def segments (body : Text) : Except Rejection (List Segment) := Segment.scan body 0 0 0 []

end Splice
