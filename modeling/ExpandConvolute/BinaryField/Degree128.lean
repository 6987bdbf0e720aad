/-!
# ExpandConvolute.BinaryField.Degree128

The binary field of degree 128: polynomials over the two-element field modulo
`x^128 + x^7 + x^2 + x + 1`. Bit `i` of a word is the coefficient of `x^i`.

* Addition is `^^^` of words and needs no definition of its own.
* `timesX` multiplies by `x`: shift, and fold the bit that leaves the word back in as `x^7 + x^2 +
  x + 1`.
* `mul` multiplies two elements, one bit of the left factor at a time, so that the product never
  leaves 128 bits.
-/

namespace ExpandConvolute
namespace Degree128

/-- An element of the field, or any other 128-bit word. -/
abbrev Element := BitVec 128

def zero : Element := 0#128

def one : Element := 1#128

/-- What `x^128` is equal to: `x^7 + x^2 + x + 1`. -/
def reduction : Element := 0x87#128

def timesX (a : Element) : Element :=
  if a.msb then (a <<< 1) ^^^ reduction else a <<< 1

/-- The part of a product that `bits` bits of the left factor `a`, from bit `i` on, contribute.
The argument `b` is the right factor already multiplied by `x^i`. -/
def mulFrom (a : Element) : (bits : Nat) → (i : Nat) → (b : Element) → Element
  | 0, _, _ => 0#128
  | bits + 1, i, b => (if a.getLsbD i then b else 0#128) ^^^ mulFrom a bits (i + 1) (timesX b)

def mul (a b : Element) : Element := mulFrom a 128 0 b

def square (a : Element) : Element := mul a a

/-- The word whose upper half is `hi` and whose lower half is `lo`. -/
def ofHalves (hi lo : UInt64) : Element := hi.toBitVec ++ lo.toBitVec

def upper (a : Element) : UInt64 := ⟨a.extractLsb' 64 64⟩

def lower (a : Element) : UInt64 := ⟨a.extractLsb' 0 64⟩

theorem getLsbD_ofHalves (hi lo : UInt64) (i : Nat) :
    (ofHalves hi lo).getLsbD i =
      if i < 64 then lo.toBitVec.getLsbD i else hi.toBitVec.getLsbD (i - 64) :=
  BitVec.getLsbD_append

@[simp] theorem upper_ofHalves (hi lo : UInt64) : upper (ofHalves hi lo) = hi := by
  apply UInt64.toBitVec_inj.mp
  apply BitVec.eq_of_getLsbD_eq
  intro i hi'
  simp [upper, hi', getLsbD_ofHalves]

@[simp] theorem lower_ofHalves (hi lo : UInt64) : lower (ofHalves hi lo) = lo := by
  apply UInt64.toBitVec_inj.mp
  apply BitVec.eq_of_getLsbD_eq
  intro i hi'
  simp [lower, hi', getLsbD_ofHalves]

end Degree128
end ExpandConvolute
