import ExpandConvolute.Json.Parse
import ExpandConvolute.Parameters.Basic

/-!
# ExpandConvolute.Parameters.Text

The written form of parameters: a JSON object with one member for each of them.

* `toText` writes the members in a fixed order, without blanks.
* `ofText?` reads a text with the members in any order and passes over members with other names,
  but wants each of the eight exactly once. It also reads a plain list of the eight values. Sizes
  are whole numbers below `2^64` and the seed is one below `2^128`.

Reading and writing stand for a general library of JSON and for the code that it derives from the
names of the parameters. That library is assumed to follow its documentation: a strict grammar,
members in the order of the record when they are written, and a refusal of members that are missing
or come twice. What is proved about texts is proved of this form of it.
-/

namespace ExpandConvolute
namespace Parameters

open Json

/-! ## Writing -/

def flagText (b : Bool) : String := if b then "true" else "false"

/-- The names of the parameters and the texts of their values, in written order. -/
def members (P : Parameters) : List (String × String) := [
  ("message_size", Nat.repr P.messageSize.toNat),
  ("code_size", Nat.repr P.codeSize.toNat),
  ("expander_weight", Nat.repr P.weight.toNat),
  ("accumulator_width", Nat.repr P.width.toNat),
  ("systematic", flagText P.systematic),
  ("regular_expander", flagText P.regular),
  ("mix_twice", flagText P.secondSweep),
  ("seed", Nat.repr P.seed.toNat)]

def objectText (members : List (String × String)) : String :=
  "\x7b" ++ ",".intercalate (members.map fun m => "\"" ++ m.1 ++ "\":" ++ m.2) ++ "\x7d"

def toText (P : Parameters) : String := objectText P.members

/-! ## Reading -/

def sizeOf? : Value → Option UInt64
  | .number (some n) => if n < sizeLimit then some (UInt64.ofNat n) else none
  | _ => none

def flagOf? : Value → Option Bool
  | .bool b => some b
  | _ => none

def seedOf? : Value → Option Seed
  | .number (some n) => if n < sizeLimit * sizeLimit then some (BitVec.ofNat 128 n) else none
  | _ => none

/-- The value of the only member of the given name. -/
def member? (members : List (Option String × Value)) (name : String) : Option Value :=
  match members.filter fun m => m.1 = some name with
  | [m] => some m.2
  | _ => none

def ofValues? (messageSize codeSize weight width systematic regular secondSweep seed : Value) :
    Option Parameters := do
  return {
    messageSize := ← sizeOf? messageSize
    codeSize := ← sizeOf? codeSize
    weight := ← sizeOf? weight
    width := ← sizeOf? width
    systematic := ← flagOf? systematic
    regular := ← flagOf? regular
    secondSweep := ← flagOf? secondSweep
    seed := ← seedOf? seed }

def ofValue? : Value → Option Parameters
  | .object members =>
    if members.all fun m => m.1.isSome then do
      ofValues? (← member? members "message_size") (← member? members "code_size")
        (← member? members "expander_weight") (← member? members "accumulator_width")
        (← member? members "systematic") (← member? members "regular_expander")
        (← member? members "mix_twice") (← member? members "seed")
    else
      none
  | .array [messageSize, codeSize, weight, width, systematic, regular, secondSweep, seed] =>
    ofValues? messageSize codeSize weight width systematic regular secondSweep seed
  | _ => none

def ofText? (s : String) : Option Parameters := (parse s.toList).bind ofValue?

end Parameters
end ExpandConvolute
