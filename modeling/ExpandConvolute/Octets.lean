/-!
# ExpandConvolute.Octets

Byte strings and the numbers they stand for.

* `littleEndian` writes the low digits of a number in base 256, least significant first, and
  `value` reads them back.
* `hex` is the text form: two lower-case hexadecimal digits a byte, first byte first. `hexWord`
  is the text of a 128-bit word, most significant digit first.
-/

namespace ExpandConvolute
namespace Octets

/-- The `count` lowest digits of `n` in base 256, least significant first. -/
def littleEndian : (count : Nat) → (n : Nat) → List UInt8
  | 0, _ => []
  | count + 1, n => UInt8.ofNat n :: littleEndian count (n / 256)

/-- The number whose digits in base 256 are the given bytes, least significant first. -/
def value : List UInt8 → Nat
  | [] => 0
  | b :: bs => b.toNat + 256 * value bs

@[simp] theorem length_littleEndian (count n : Nat) : (littleEndian count n).length = count := by
  induction count generalizing n with
  | zero => rfl
  | succ count ih => simp [littleEndian, ih]

def hexDigits : Vector Char 16 :=
  #v['0', '1', '2', '3', '4', '5', '6', '7', '8', '9', 'a', 'b', 'c', 'd', 'e', 'f']

def hexOctet (b : UInt8) : List Char :=
  [hexDigits[b.toNat / 16 % 16], hexDigits[b.toNat % 16]]

/-- The text of a byte string: two digits a byte, first byte first. -/
def hex (bs : List UInt8) : String := String.ofList (bs.flatMap hexOctet)

/-- The bytes of a 128-bit word, least significant first. -/
def ofWord (w : BitVec 128) : List UInt8 := littleEndian 16 w.toNat

/-- The 128-bit word whose bytes are the first sixteen given ones, least significant first. -/
def toWord (bs : List UInt8) : BitVec 128 := BitVec.ofNat 128 (value bs)

/-- The text of a 128-bit word: 32 digits, most significant first. -/
def hexWord (w : BitVec 128) : String := hex (ofWord w).reverse

end Octets
end ExpandConvolute
