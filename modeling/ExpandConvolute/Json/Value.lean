/-!
# ExpandConvolute.Json.Value

JSON values as far as a record of whole numbers and truth values needs them. A number is kept
only if it is written as a plain whole number; any other well-formed number is known to be one
and no more. A string that spells half of a surrogate pair is well-formed but stands for no text.
-/

namespace ExpandConvolute
namespace Json

inductive Value where
  | null
  | bool (b : Bool)
  /-- A number, and its value if it is written without sign, fraction and exponent. -/
  | number (n : Option Nat)
  /-- A string, and its text if it stands for one. -/
  | string (s : Option String)
  | array (items : List Value)
  /-- The members in the order in which they are written, repeated keys included. -/
  | object (members : List (Option String × Value))

end Json
end ExpandConvolute
