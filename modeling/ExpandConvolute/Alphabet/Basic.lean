import ExpandConvolute.BinaryField.Degree128
import ExpandConvolute.BinaryField.Degree8

/-!
# ExpandConvolute.Alphabet.Basic

The algebra that a code runs in. An `Alphabet` on a type of symbols fixes what the encoder needs:
a zero, a sum, and the product with one constant of the alphabet. The encoder is written for any
alphabet; `Kind` lists the ones that come with the library.

* integers of a given width: sums wrap around, the constant is 2;
* elements of the binary field of degree 128: the constant is `x`;
* single bits: the constant is 1;
* byte strings of a given length, byte by byte in the binary field of degree 8: the constant
  is `x`.
-/

namespace ExpandConvolute

structure Alphabet (σ : Type) where
  zero : σ
  add : σ → σ → σ
  scale : σ → σ

namespace Alphabet

def integers (width : Nat) : Alphabet (BitVec width) where
  zero := 0
  add a b := a + b
  scale a := a <<< 1

def field128 : Alphabet Degree128.Element where
  zero := 0
  add a b := a ^^^ b
  scale := Degree128.timesX

def bits : Alphabet Bool where
  zero := false
  add a b := a ^^ b
  scale a := a

def octets (count : Nat) : Alphabet (Vector UInt8 count) where
  zero := Vector.replicate count 0
  add a b := Vector.zipWith (· ^^^ ·) a b
  scale a := a.map Degree8.timesX

inductive Kind where
  | integers (width : Nat)
  | field128
  | bits
  | octets (count : Nat)
deriving DecidableEq, Repr

namespace Kind

abbrev Symbol : Kind → Type
  | integers width => BitVec width
  | field128 => Degree128.Element
  | bits => Bool
  | octets count => Vector UInt8 count

def alphabet : (κ : Kind) → Alphabet κ.Symbol
  | integers width => Alphabet.integers width
  | field128 => Alphabet.field128
  | bits => Alphabet.bits
  | octets count => Alphabet.octets count

instance instDecidableEqSymbol : (κ : Kind) → DecidableEq κ.Symbol
  | integers _ => inferInstanceAs (DecidableEq (BitVec _))
  | field128 => inferInstanceAs (DecidableEq (BitVec 128))
  | bits => inferInstanceAs (DecidableEq Bool)
  | octets _ => inferInstanceAs (DecidableEq (Vector UInt8 _))

end Kind
end Alphabet
end ExpandConvolute
