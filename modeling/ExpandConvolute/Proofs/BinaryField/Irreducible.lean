import ExpandConvolute.Proofs.BinaryField.Polynomial
import Mathlib.Data.BitVec
import Mathlib.FieldTheory.Finite.Extension
import Mathlib.Logic.Function.Iterate

/-!
# ExpandConvolute.Proofs.BinaryField.Irreducible

The words are a field: `x^128 + x^7 + x^2 + x + 1` is irreducible.

* `irreducible_of_frobenius` is a criterion for degrees that are powers of two. The degree of an
  irreducible factor of a divisor of `X^(2^(2n)) - X` divides `2n`; if it is not `2n` itself, then
  it divides `n`, and the factor divides `X^(2^n) - X` as well.
* Both conditions are runs of the library's own product: 64 squarings take `x` to `halfway` and
  another 64 take it back, and `halfway + x` has an inverse.
* `mul_forms_field`: words with `mul` are the field of `2^128` elements.
-/

namespace ExpandConvolute

open Polynomial

theorem irreducible_of_frobenius {f : (ZMod 2)[X]} {n k : Nat} (hn : n = 2 ^ k)
    (hdeg : f.natDegree = n + n) (hdvd : f ∣ X ^ 2 ^ (n + n) - X)
    (hcop : IsCoprime f (X ^ 2 ^ n - X)) : Irreducible f := by
  have hpos : 0 < n := by
    rw [hn]
    exact Nat.two_pow_pos k
  have hf : f ≠ 0 := by
    rintro rfl
    rw [natDegree_zero] at hdeg
    omega
  obtain ⟨q, hq, hqf⟩ := exists_irreducible_of_natDegree_pos (f := f) (by omega)
  have hdvd' : q.natDegree ∣ 2 ^ (k + 1) := by
    have h := hq.natDegree_dvd_of_dvd_X_pow_card_pow_sub_X (n := n + n)
      (by rw [Nat.card_zmod]; exact hqf.trans hdvd)
    rwa [← Nat.two_mul, hn, ← Nat.pow_succ'] at h
  obtain ⟨j, hj, hqj⟩ := (Nat.dvd_prime_pow Nat.prime_two).mp hdvd'
  rcases Nat.lt_or_eq_of_le hj with hlt | rfl
  · -- a proper factor would divide both polynomials of the hypotheses
    have hqn : q.natDegree ∣ n := by
      rw [hqj, hn]
      exact Nat.pow_dvd_pow 2 (by omega)
    have hqX : q ∣ X ^ 2 ^ n - X := by
      have h := hq.natDegree_dvd_iff_dvd_X_pow_card_pow_sub_X.mp hqn
      rwa [Nat.card_zmod] at h
    exact absurd (hcop.isUnit_of_dvd' hqf hqX) hq.not_isUnit
  · have hle : f.natDegree ≤ q.natDegree := by
      rw [hqj, hdeg, hn, Nat.pow_succ]
      omega
    exact (associated_of_dvd_of_natDegree_le hqf hf hle).irreducible hq

namespace Degree128

/-! ## Squaring -/

theorem residue_iterate_square (n : Nat) (a : Element) :
    residue (square^[n] a) = residue a ^ 2 ^ n := by
  induction n generalizing a with
  | zero => simp
  | succ n ih =>
    rw [Function.iterate_succ_apply, ih, square, residue_mul, ← sq, ← pow_mul, ← pow_succ']

/-- What 64 squarings make of `x`. -/
def halfway : Element := 0x61651fea6b5832b944e598a795a299f6#128

theorem iterate_square_two : square^[64] 2#128 = halfway := by decide +kernel

theorem iterate_square_halfway : square^[64] halfway = 2#128 := by decide +kernel

/-- The inverse of `halfway + x`. -/
def inverse : Element := 0x9e4af928ddbc838a41a8cafd2c95b018#128

theorem mul_inverse : mul (halfway ^^^ 2#128) inverse = one := by decide +kernel

/-- The class of `X^(2^n) - X`, as a word. -/
theorem residue_frobenius (n : Nat) :
    AdjoinRoot.mk modulus (X ^ 2 ^ n - X) = residue (square^[n] 2#128 ^^^ 2#128) := by
  rw [CharTwo.sub_eq_add, map_add, map_pow, AdjoinRoot.mk_X, residue_xor, residue_iterate_square,
    residue_two]

theorem modulus_dvd : modulus ∣ X ^ 2 ^ (64 + 64) - X := by
  rw [← AdjoinRoot.mk_eq_zero, residue_frobenius, Function.iterate_add_apply, iterate_square_two,
    iterate_square_halfway, BitVec.xor_self, residue_zero]

/-- A polynomial whose class has an inverse has no factor in common with the modulus. -/
theorem isCoprime_of_inverse {p : (ZMod 2)[X]} {c : Element}
    (h : AdjoinRoot.mk modulus p * residue c = 1) : IsCoprime modulus p := by
  rw [residue, ← map_mul, ← map_one (AdjoinRoot.mk modulus)] at h
  obtain ⟨q, hq⟩ := AdjoinRoot.mk_eq_mk.mp h
  exact ⟨-q, polynomialOf c, by linear_combination hq⟩

theorem modulus_coprime : IsCoprime modulus (X ^ 2 ^ 64 - X) := by
  apply isCoprime_of_inverse (c := inverse)
  rw [residue_frobenius, iterate_square_two, ← residue_mul, mul_inverse, residue_one]

theorem modulus_irreducible : Irreducible modulus :=
  irreducible_of_frobenius (n := 64) (k := 6) rfl natDegree_modulus modulus_dvd modulus_coprime

/-! ## The field -/

instance : Fact (Irreducible modulus) := ⟨modulus_irreducible⟩

theorem card_classes : Nat.card (AdjoinRoot modulus) = 2 ^ 128 := by
  let B := AdjoinRoot.powerBasis modulus_monic.ne_zero
  have hfinite := B.finite
  have hdim : B.dim = 128 := by rw [AdjoinRoot.powerBasis_dim, natDegree_modulus]
  rw [Module.natCard_eq_pow_finrank (K := ZMod 2), Nat.card_zmod, B.finrank, hdim]

instance : Finite (AdjoinRoot modulus) := by
  apply Nat.finite_of_card_ne_zero
  rw [card_classes]
  exact (Nat.two_pow_pos 128).ne'

theorem residue_bijective : Function.Bijective residue := by
  have hcard : Nat.card Element = 2 ^ 128 := by
    rw [Nat.card_congr BitVec.equivFin.toEquiv, Nat.card_fin]
  apply residue_injective.bijective_of_nat_card_le
  rw [card_classes, hcard]

theorem iterate_square_self (a : Element) : square^[128] a = a := by
  have := Fintype.ofFinite (AdjoinRoot modulus)
  apply residue_injective
  rw [residue_iterate_square, ← card_classes, ← Fintype.card_eq_nat_card, FiniteField.pow_card]

theorem residue_eq_zero {a : Element} : residue a = 0 ↔ a = zero := by
  rw [← residue_zero, residue_injective.eq_iff]
  rfl

theorem exists_mul_eq_one {a : Element} (ha : a ≠ zero) : ∃ c, mul a c = one := by
  obtain ⟨c, hc⟩ := residue_bijective.surjective (residue a)⁻¹
  refine ⟨c, residue_injective ?_⟩
  rw [residue_mul, hc, residue_one, mul_inv_cancel₀ (mt residue_eq_zero.mp ha)]

theorem eq_zero_or_eq_zero {a b : Element} (h : mul a b = zero) : a = zero ∨ b = zero := by
  have hmul : residue a * residue b = 0 := by
    rw [← residue_mul, residue_eq_zero, h]
  exact (mul_eq_zero.mp hmul).imp residue_eq_zero.mp residue_eq_zero.mp

/-- Words with `^^^` as sum and `mul` as product are the field of `2^128` elements: 128 squarings
give back every word, every word but `zero` has an inverse, and there are no zero divisors. -/
theorem mul_forms_field :
    (∃ e : Element ≃ GaloisField 2 128,
      ∀ a b, e (a ^^^ b) = e a + e b ∧ e (mul a b) = e a * e b) ∧
    (∀ a, square^[128] a = a) ∧
    (∀ a, a ≠ zero → ∃ c, mul a c = one) ∧
    ∀ a b, mul a b = zero → a = zero ∨ b = zero := by
  refine ⟨?_, iterate_square_self, fun _ => exists_mul_eq_one, fun _ _ => eq_zero_or_eq_zero⟩
  obtain ⟨g⟩ : Nonempty (AdjoinRoot modulus ≃+* GaloisField 2 128) :=
    ⟨(GaloisField.algEquivGaloisField 2 128 card_classes).toRingEquiv⟩
  refine ⟨(Equiv.ofBijective residue residue_bijective).trans g.toEquiv, ?_⟩
  intro a b
  constructor
  · show g (residue (a ^^^ b)) = g (residue a) + g (residue b)
    rw [residue_xor, map_add]
  · show g (residue (mul a b)) = g (residue a) * g (residue b)
    rw [residue_mul, map_mul]

theorem mul_forms_field_at_top :
    let a : Element := 0x80000000000000000000000000000000#128
    a ≠ zero ∧ (∃ c, mul a c = one) ∧ mul a zero = zero ∧ (a = zero ∨ zero = zero) := by
  intro a
  obtain ⟨-, -, hinverse, hzero⟩ := mul_forms_field
  have ha : a ≠ zero := by decide
  have hmul : mul a zero = zero := mul_zero a
  exact ⟨ha, hinverse a ha, hmul, hzero a zero hmul⟩

end Degree128
end ExpandConvolute
