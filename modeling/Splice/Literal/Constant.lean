import Splice.Decimal.Binary64
import Splice.Text.Basic

/-!
# Constants

The values that plain literals write.
-/

namespace Splice

/-- The value that a literal writes. -/
inductive Constant
  | int (value : Int)
  | float (value : Binary64)
  | string (text : Text)
  | char (text : Text)
  | bool (value : Bool)
  | null
deriving DecidableEq, Inhabited

end Splice
