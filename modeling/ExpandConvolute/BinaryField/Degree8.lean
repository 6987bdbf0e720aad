/-!
# ExpandConvolute.BinaryField.Degree8

The binary field of degree 8: polynomials over the two-element field modulo
`x^8 + x^4 + x^3 + x^2 + 1`. Bit `i` of a byte is the coefficient of `x^i`. Addition is `^^^`;
the only product that the code takes is the one with `x`.
-/

namespace ExpandConvolute
namespace Degree8

/-- What `x^8` is equal to: `x^4 + x^3 + x^2 + 1`. -/
def reduction : UInt8 := 0x1d

def timesX (b : UInt8) : UInt8 :=
  if b &&& 0x80 = 0 then b <<< 1 else (b <<< 1) ^^^ reduction

end Degree8
end ExpandConvolute
