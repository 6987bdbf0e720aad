import ExpandConvolute.Alphabet.Basic
import ExpandConvolute.Keystream.Tape
import ExpandConvolute.Octets

/-!
# ExpandConvolute.Alphabet.Symbol

Symbols of the library's alphabets outside the code: drawn from a keystream, and written as text.

* `sample` draws a uniform symbol. Numbers and field elements take the low bits of as many words
  as they need, a single bit is the top bit of one word, and a byte string is that many bytes.
* `render` is the text of a symbol in reports: a decimal number, 32 hexadecimal digits, one
  binary digit, or decimal bytes in braces.
-/

namespace ExpandConvolute
namespace Alphabet
namespace Kind

def sample : (κ : Kind) → Tape → κ.Symbol × Tape
  | integers width, t => t.bits width
  | field128, t => t.bits 128
  | bits, t => (t.next32.1 ≥ 0x80000000, t.next32.2)
  | octets count, t => t.octets count

def render : (κ : Kind) → κ.Symbol → String
  | integers _, a => Nat.repr a.toNat
  | field128, a => Octets.hexWord a
  | bits, a => if a then "1" else "0"
  | octets _, a => "\x7b" ++ " ".intercalate (a.toList.map fun b => Nat.repr b.toNat) ++ "\x7d"

end Kind
end Alphabet
end ExpandConvolute
