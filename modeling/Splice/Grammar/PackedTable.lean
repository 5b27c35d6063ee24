/-!
# Sets and tables in numbers

A set of small numbers is written as a number with one bit for each member. A table of numbers of
one width is packed into a single number: entry `i` stands at bit `i * width`. Joining sets and
reading entries are then operations on numbers, whatever the size of the set or the table.

* `PackedTable.settle`: the least sets that hold the given ones and what flows between them.
* `PackedTable.nonzero`: the entries that are not zero.
* `membersOf`: the members of a set.
-/

namespace Splice

-- Powers are the core library's own, also where there are other instances for them.
attribute [local instance (high)] instPowNat

/-- Numbers below `2 ^ width`, one after another. -/
structure PackedTable where
  width : Nat
  bits : Nat
deriving DecidableEq, Inhabited

namespace PackedTable

/-- A table of zeros, which are empty sets. -/
def empty (width : Nat) : PackedTable := ⟨width, 0⟩

/-- The entry with a number. -/
def get (t : PackedTable) (i : Nat) : Nat := (t.bits >>> (i * t.width)) % 2 ^ t.width

/-- The table with the bits of `n` added to an entry. -/
def add (t : PackedTable) (i n : Nat) : PackedTable := ⟨t.width, t.bits ||| n <<< (i * t.width)⟩

/-- Adds to the first entry of each pair what the second one holds, pair after pair. A table that
has it already is left as it is. -/
def flow (t : PackedTable) : List (Nat × Nat) → PackedTable
  | [] => t
  | (target, source) :: rest =>
    let n := t.get source
    if (n &&& t.get target).beq n then flow t rest else flow (t.add target n) rest

/-- Lets the entries flow until nothing changes, at most `fuel` times. -/
def settle (pairs : List (Nat × Nat)) : (fuel : Nat) → PackedTable → PackedTable
  | 0, t => t
  | fuel + 1, t =>
    let t' := t.flow pairs
    if t'.bits.beq t.bits then t else settle pairs fuel t'

/-- The numbers of the entries that are not zero, in front of a list. The entries are those of
`bits`, no more than `2 ^ levels`, of which the first has the number `first`. They are halved until
there is one left. -/
def nonzeroFrom (width : Nat) : (levels first bits : Nat) → List Nat → List Nat
  | 0, first, bits, acc => if bits.beq 0 then acc else first :: acc
  | levels + 1, first, bits, acc =>
    if bits.beq 0 then acc
    else
      let half := 2 ^ levels
      nonzeroFrom width levels (first + half) (bits >>> (half * width))
        (nonzeroFrom width levels first (bits % 2 ^ (half * width)) acc)

/-- The numbers of the entries of a table that are not zero, the greatest first, if there are no
more than `count` entries. -/
def nonzero (t : PackedTable) (count : Nat) : List Nat :=
  nonzeroFrom t.width (count.log2 + 1) 0 t.bits []

end PackedTable

/-- The members of a set of numbers below `bound`, the greatest first. -/
def membersOf (bound set : Nat) : List Nat := PackedTable.nonzero ⟨1, set⟩ bound

end Splice
