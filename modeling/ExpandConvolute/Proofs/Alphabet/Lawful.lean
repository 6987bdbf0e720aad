import ExpandConvolute.Alphabet.Basic
import ExpandConvolute.Proofs.BinaryField.Linear

/-!
# ExpandConvolute.Proofs.Alphabet.Lawful

The laws that sums of codewords rest on: the sum of an alphabet is a commutative monoid and the
product with its constant respects it. Every alphabet of the library is lawful (`Kind.lawful`).
-/

namespace ExpandConvolute
namespace Alphabet

structure Lawful {σ : Type} (A : Alphabet σ) : Prop where
  add_assoc : ∀ a b c, A.add (A.add a b) c = A.add a (A.add b c)
  add_comm : ∀ a b, A.add a b = A.add b a
  zero_add : ∀ a, A.add A.zero a = a
  scale_add : ∀ a b, A.scale (A.add a b) = A.add (A.scale a) (A.scale b)
  scale_zero : A.scale A.zero = A.zero

namespace Lawful

theorem add_add_add_comm {σ : Type} {A : Alphabet σ} (hA : A.Lawful) (a b c d : σ) :
    A.add (A.add a b) (A.add c d) = A.add (A.add a c) (A.add b d) := by
  rw [hA.add_assoc, ← hA.add_assoc b, hA.add_comm b c, hA.add_assoc, ← hA.add_assoc a]

theorem add_zero {σ : Type} {A : Alphabet σ} (hA : A.Lawful) (a : σ) : A.add a A.zero = a := by
  rw [hA.add_comm, hA.zero_add]

/-- What a sum is started from can as well be added to it. -/
theorem foldl_add {σ : Type} {A : Alphabet σ} (hA : A.Lawful) (l : List σ) :
    ∀ a, l.foldl A.add a = A.add a (l.foldl A.add A.zero) := by
  induction l with
  | nil =>
    intro a
    exact (hA.add_zero a).symm
  | cons b l ih =>
    intro a
    calc l.foldl A.add (A.add a b)
        = A.add (A.add a b) (l.foldl A.add A.zero) := ih _
      _ = A.add a (A.add b (l.foldl A.add A.zero)) := hA.add_assoc a b _
      _ = A.add a (l.foldl A.add (A.add A.zero b)) := by rw [← ih b, hA.zero_add]

theorem integers (width : Nat) : (Alphabet.integers width).Lawful where
  add_assoc := BitVec.add_assoc
  add_comm := BitVec.add_comm
  zero_add := BitVec.zero_add
  scale_add _ _ := BitVec.shiftLeft_add_distrib
  scale_zero := BitVec.zero_shiftLeft 1

theorem field128 : Alphabet.field128.Lawful where
  add_assoc := BitVec.xor_assoc
  add_comm := BitVec.xor_comm
  zero_add _ := BitVec.zero_xor
  scale_add := Degree128.timesX_xor
  scale_zero := by
    simp only [Alphabet.field128, BitVec.ofNat_eq_ofNat, Degree128.timesX_zero]

theorem bits : Alphabet.bits.Lawful where
  add_assoc := Bool.xor_assoc
  add_comm := Bool.xor_comm
  zero_add := Bool.false_xor
  scale_add _ _ := rfl
  scale_zero := rfl

theorem octets (count : Nat) : (Alphabet.octets count).Lawful where
  add_assoc a b c := by
    apply Vector.ext
    intro i hi
    simp [Alphabet.octets, UInt8.xor_assoc]
  add_comm a b := by
    apply Vector.ext
    intro i hi
    simp [Alphabet.octets, UInt8.xor_comm]
  zero_add a := by
    apply Vector.ext
    intro i hi
    simp [Alphabet.octets]
  scale_add a b := by
    apply Vector.ext
    intro i hi
    simp [Alphabet.octets, Degree8.timesX_xor]
  scale_zero := by
    apply Vector.ext
    intro i hi
    simp [Alphabet.octets, Degree8.timesX_zero]

end Lawful

theorem Kind.lawful (κ : Kind) : κ.alphabet.Lawful := by
  cases κ with
  | integers width => exact Lawful.integers width
  | field128 => exact Lawful.field128
  | bits => exact Lawful.bits
  | octets count => exact Lawful.octets count

end Alphabet
end ExpandConvolute
