import ExpandConvolute.Json.Value

/-!
# ExpandConvolute.Json.Token

The tokens of a JSON text. `scan` reads a text one character at a time; its `Mode` is what the
characters read since the last complete token amount to. Numbers and words end where a character
follows that cannot belong to them, and are judged as a whole then.

Blanks are the space, the tab, the line feed and the carriage return. Inside a string, control
characters must be escaped, and an escaped code unit may be half of a surrogate pair.
-/

namespace ExpandConvolute
namespace Json

/-- A token: a mark, or a value that has no parts. -/
inductive Token where
  | openObject
  | closeObject
  | openArray
  | closeArray
  | colon
  | comma
  | scalar (v : Value)

namespace Token

/-! ## Numbers -/

def isDigit (c : Char) : Bool := '0' ≤ c && c ≤ '9'

def afterDigits : List Char → Option (List Char)
  | c :: cs => if isDigit c then some (cs.dropWhile isDigit) else none
  | [] => none

/-- What follows a whole number without superfluous zeros. -/
def afterInteger : List Char → Option (List Char)
  | '0' :: cs => some cs
  | cs => afterDigits cs

def afterFraction : List Char → Option (List Char)
  | '.' :: cs => afterDigits cs
  | cs => some cs

def afterExponent : List Char → Option (List Char)
  | 'e' :: '+' :: cs | 'e' :: '-' :: cs | 'E' :: '+' :: cs | 'E' :: '-' :: cs => afterDigits cs
  | 'e' :: cs | 'E' :: cs => afterDigits cs
  | cs => some cs

def afterNumber (cs : List Char) : Option (List Char) := do
  let cs := match cs with
    | '-' :: cs => cs
    | cs => cs
  afterExponent (← afterFraction (← afterInteger cs))

/-- The number that a string of decimal digits stands for, read after the number `n`. -/
def digitsValue : (n : Nat) → List Char → Nat
  | n, [] => n
  | n, c :: cs => digitsValue (10 * n + (c.toNat - '0'.toNat)) cs

def ofNumeral (cs : List Char) : Option Token :=
  if afterNumber cs = some [] then
    some (.scalar (.number (if cs.all isDigit then some (digitsValue 0 cs) else none)))
  else
    none

/-! ## Words and strings -/

def ofWord (cs : List Char) : Option Token :=
  if cs = ['n', 'u', 'l', 'l'] then some (.scalar .null)
  else if cs = ['t', 'r', 'u', 'e'] then some (.scalar (.bool true))
  else if cs = ['f', 'a', 'l', 's', 'e'] then some (.scalar (.bool false))
  else none

/-- The code unit that a single letter after a backslash stands for. -/
def escapedUnit (c : Char) : Option Nat :=
  if c = '"' ∨ c = '\\' ∨ c = '/' then some c.toNat
  else if c = 'b' then some 0x08
  else if c = 'f' then some 0x0c
  else if c = 'n' then some 0x0a
  else if c = 'r' then some 0x0d
  else if c = 't' then some 0x09
  else none

def hexValue (c : Char) : Option Nat :=
  if '0' ≤ c ∧ c ≤ '9' then some (c.toNat - '0'.toNat)
  else if 'a' ≤ c ∧ c ≤ 'f' then some (c.toNat - 'a'.toNat + 10)
  else if 'A' ≤ c ∧ c ≤ 'F' then some (c.toNat - 'A'.toNat + 10)
  else none

def isLead (u : Nat) : Bool := 0xd800 ≤ u && u < 0xdc00

def isTrail (u : Nat) : Bool := 0xdc00 ≤ u && u < 0xe000

/-- The text of a string of code units and code points, in which halves of surrogate pairs stand
only next to each other. -/
def textOfUnits : List Nat → Option (List Char)
  | [] => some []
  | [u] => if isLead u || isTrail u then none else some [Char.ofNat u]
  | u :: v :: us =>
    if isLead u then
      if isTrail v then
        (textOfUnits us).map (Char.ofNat (0x10000 + 0x400 * (u - 0xd800) + (v - 0xdc00)) :: ·)
      else
        none
    else if isTrail u then
      none
    else
      (textOfUnits (v :: us)).map (Char.ofNat u :: ·)

def ofText (units : List Nat) : Token :=
  .scalar (.string ((textOfUnits units).map String.ofList))

/-! ## Scanning -/

/-- What the characters since the last token amount to. Strings, numbers and words are held with
their last character first. -/
inductive Mode where
  | idle
  /-- A string that is not closed yet. -/
  | text (units : List Nat)
  /-- The same, after a backslash. -/
  | escape (units : List Nat)
  /-- The same, with `left` hexadecimal digits of a code unit still to come after `value`. -/
  | codeUnit (units : List Nat) (left value : Nat)
  | numeral (cs : List Char)
  | word (cs : List Char)

def isBlank (c : Char) : Bool := c = ' ' || c = '\t' || c = '\n' || c = '\r'

def isNumeral (c : Char) : Bool := isDigit c || c = '-' || c = '+' || c = '.' || c = 'e' || c = 'E'

def isLetter (c : Char) : Bool := 'a' ≤ c && c ≤ 'z'

def ofMark (c : Char) : Option Token :=
  if c = '\x7b' then some .openObject
  else if c = '\x7d' then some .closeObject
  else if c = '[' then some .openArray
  else if c = ']' then some .closeArray
  else if c = ':' then some .colon
  else if c = ',' then some .comma
  else none

/-- A character with which a token may begin. -/
def begin (c : Char) : Option (List Token × Mode) :=
  if isBlank c then some ([], .idle)
  else if c = '"' then some ([], .text [])
  else if c = '-' ∨ isDigit c then some ([], .numeral [c])
  else if isLetter c then some ([], .word [c])
  else (ofMark c).map fun t => ([t], .idle)

/-- One more character: the tokens that are complete with it, and what is left. -/
def advance : Mode → Char → Option (List Token × Mode)
  | .idle, c => begin c
  | .text units, c =>
    if c = '"' then some ([ofText units.reverse], .idle)
    else if c = '\\' then some ([], .escape units)
    else if c.toNat < 0x20 then none
    else some ([], .text (c.toNat :: units))
  | .escape units, c =>
    if c = 'u' then some ([], .codeUnit units 3 0)
    else (escapedUnit c).map fun u => ([], .text (u :: units))
  | .codeUnit units left value, c => do
    let value := 16 * value + (← hexValue c)
    match left with
    | 0 => some ([], .text (value :: units))
    | left + 1 => some ([], .codeUnit units left value)
  | .numeral cs, c =>
    if isNumeral c then
      some ([], .numeral (c :: cs))
    else do
      let token ← ofNumeral cs.reverse
      let (tokens, mode) ← begin c
      some (token :: tokens, mode)
  | .word cs, c =>
    if isLetter c then
      some ([], .word (c :: cs))
    else do
      let token ← ofWord cs.reverse
      let (tokens, mode) ← begin c
      some (token :: tokens, mode)

/-- The tokens that are complete at the end of the text. -/
def finish : Mode → Option (List Token)
  | .idle => some []
  | .numeral cs => (ofNumeral cs.reverse).map fun t => [t]
  | .word cs => (ofWord cs.reverse).map fun t => [t]
  | .text _ | .escape _ | .codeUnit .. => none

/-- The tokens of a text that continues what `mode` holds. -/
def scanFrom : Mode → List Char → Option (List Token)
  | mode, [] => finish mode
  | mode, c :: cs => do
    let (tokens, mode) ← advance mode c
    let rest ← scanFrom mode cs
    some (tokens ++ rest)

def scan (cs : List Char) : Option (List Token) := scanFrom .idle cs

end Token
end Json
end ExpandConvolute
