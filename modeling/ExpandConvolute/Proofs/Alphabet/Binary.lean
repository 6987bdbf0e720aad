import ExpandConvolute.Proofs.Alphabet.Lawful
import ExpandConvolute.Proofs.BinaryField.Quotient

/-!
# ExpandConvolute.Proofs.Alphabet.Binary

Alphabets in which every symbol is its own negative and the constant has an inverse: all alphabets
of the library but the integers (`Kind.binary`), where the product with 2 loses the top bit. In
them every operation of the encoder on a symbol can be undone.

Sums can be undone in every alphabet of the library (`Kind.exists_negative`).
-/

namespace ExpandConvolute
namespace Alphabet

structure Binary {σ : Type} (A : Alphabet σ) : Prop where
  lawful : A.Lawful
  add_self : ∀ a, A.add a a = A.zero
  scale_bijective : Function.Bijective A.scale

namespace Binary

section Operations

variable {σ : Type} {A : Alphabet σ} (hA : A.Binary)

include hA

theorem add_add_cancel (a b : σ) : A.add (A.add a b) b = a := by
  rw [hA.lawful.add_assoc, hA.add_self, hA.lawful.add_comm, hA.lawful.zero_add]

theorem add_bijective (b : σ) : Function.Bijective (A.add · b) :=
  Function.Involutive.bijective fun a => hA.add_add_cancel a b

theorem scale_add_bijective (b : σ) : Function.Bijective fun a => A.scale (A.add a b) :=
  hA.scale_bijective.comp (hA.add_bijective b)

theorem scale_add_self (a : σ) : A.scale (A.add a a) = A.zero := by
  rw [hA.add_self, hA.lawful.scale_zero]

end Operations

theorem field128 : Alphabet.field128.Binary where
  lawful := .field128
  add_self _ := BitVec.xor_self
  scale_bijective := Degree128.timesX_bijective

theorem bits : Alphabet.bits.Binary where
  lawful := .bits
  add_self := Bool.xor_self
  scale_bijective := Function.bijective_id

theorem octets (count : Nat) : (Alphabet.octets count).Binary where
  lawful := .octets count
  add_self a := by
    apply Vector.ext
    intro i hi
    simp [Alphabet.octets]
  scale_bijective := by
    obtain ⟨quotient, hleft, hright⟩ :=
      Function.bijective_iff_has_inverse.mp Degree8.timesX_bijective
    refine Function.bijective_iff_has_inverse.mpr ⟨Vector.map quotient, ?_, ?_⟩
    · intro a
      apply Vector.ext
      intro i hi
      simp [Alphabet.octets, hleft _]
    · intro a
      apply Vector.ext
      intro i hi
      simp [Alphabet.octets, hright _]

end Binary

theorem Kind.binary {κ : Kind} (h : ∀ width, κ ≠ .integers width) : κ.alphabet.Binary := by
  cases κ with
  | integers width => exact absurd rfl (h width)
  | field128 => exact Binary.field128
  | bits => exact Binary.bits
  | octets count => exact Binary.octets count

/-! ## Negatives -/

theorem Kind.exists_negative (κ : Kind) (a : κ.Symbol) :
    ∃ b, κ.alphabet.add a b = κ.alphabet.zero := by
  cases κ with
  | integers width => exact ⟨-a, BitVec.add_right_neg a⟩
  | field128 => exact ⟨a, Binary.field128.add_self a⟩
  | bits => exact ⟨a, Binary.bits.add_self a⟩
  | octets count => exact ⟨a, (Binary.octets count).add_self a⟩

theorem Kind.add_right_cancel (κ : Kind) {a b c : κ.Symbol}
    (h : κ.alphabet.add a c = κ.alphabet.add b c) : a = b := by
  obtain ⟨d, hd⟩ := κ.exists_negative c
  have hback : ∀ x, κ.alphabet.add (κ.alphabet.add x c) d = x := by
    intro x
    rw [κ.lawful.add_assoc, hd, κ.lawful.add_zero]
  rw [← hback a, h, hback b]

end Alphabet
end ExpandConvolute
