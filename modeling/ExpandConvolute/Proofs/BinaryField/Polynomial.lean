import ExpandConvolute.Proofs.BinaryField.Linear
import Mathlib.Algebra.CharP.Two
import Mathlib.Algebra.Field.ZMod
import Mathlib.RingTheory.AdjoinRoot
import Mathlib.Tactic.ComputeDegree

/-!
# ExpandConvolute.Proofs.BinaryField.Polynomial

Words as polynomials over the two-element field.

* `polynomialOf` reads bit `i` of a word as the coefficient of `x^i`. Sums of words are sums of
  polynomials, and the product with `x` is the product with `X` less a multiple of the modulus
  (`polynomialOf_shiftFold`).
* `Degree128.residue` is the class of a word modulo `x^128 + x^7 + x^2 + x + 1`. No two words
  have the same class, and the loop of `mulFrom` multiplies classes (`residue_mulFrom`): what is
  left of the left factor times the shifted right factor is the invariant.
* `Degree128.mul_reduces_product`: the product of two words is the remainder of the product of
  their polynomials. The laws of a commutative ring follow from those of the classes.
-/

namespace ExpandConvolute

open Polynomial

section Words

variable {w : Nat}

/-- The polynomial that a word stands for: bit `i` is the coefficient of `x^i`. -/
noncomputable def polynomialOf (a : BitVec w) : (ZMod 2)[X] :=
  ∑ i ∈ Finset.range w, monomial i (if a.getLsbD i then 1 else 0)

@[simp] theorem coeff_polynomialOf (a : BitVec w) (i : Nat) :
    (polynomialOf a).coeff i = if a.getLsbD i then 1 else 0 := by
  by_cases hi : i < w
  · simp [polynomialOf, coeff_monomial, hi]
  · simp [polynomialOf, coeff_monomial, hi, BitVec.getLsbD_of_ge a i (by omega)]

theorem coeff_polynomialOf_eq_one (a : BitVec w) (i : Nat) :
    (polynomialOf a).coeff i = 1 ↔ a.getLsbD i = true := by
  rw [coeff_polynomialOf]
  cases a.getLsbD i with
  | false => simp
  | true => simp

theorem polynomialOf_injective : Function.Injective (polynomialOf (w := w)) := by
  intro a b h
  apply BitVec.eq_of_getLsbD_eq
  intro i _
  have hi := coeff_polynomialOf_eq_one a i
  rw [h, coeff_polynomialOf_eq_one] at hi
  exact Bool.eq_iff_iff.mpr hi.symm

theorem degree_polynomialOf_lt (a : BitVec w) : (polynomialOf a).degree < w := by
  apply (degree_lt_iff_coeff_zero _ _).mpr
  intro i hi
  simp [BitVec.getLsbD_of_ge a i hi]

@[simp] theorem polynomialOf_zero : polynomialOf (0#w) = 0 := by
  ext i
  simp

@[simp] theorem polynomialOf_xor (a b : BitVec w) :
    polynomialOf (a ^^^ b) = polynomialOf a + polynomialOf b := by
  ext i
  rw [coeff_add, coeff_polynomialOf, coeff_polynomialOf, coeff_polynomialOf, BitVec.getLsbD_xor]
  cases a.getLsbD i <;> cases b.getLsbD i <;> decide

theorem polynomialOf_twoPow {i : Nat} (hi : i < w) : polynomialOf (BitVec.twoPow w i) = X ^ i := by
  ext j
  simp [coeff_X_pow, BitVec.getLsbD_twoPow, hi, eq_comm]

/-- The bit that leaves the word in a shift is the coefficient of `x^w`. -/
theorem polynomialOf_shiftLeft (a : BitVec w) :
    X * polynomialOf a = polynomialOf (a <<< 1) + if a.msb then X ^ w else 0 := by
  ext i
  cases i with
  | zero =>
    cases w with
    | zero => simp [BitVec.eq_nil a]
    | succ w => cases a.msb <;> simp
  | succ i =>
    rw [coeff_X_mul, coeff_add, coeff_polynomialOf, coeff_polynomialOf, BitVec.getLsbD_shiftLeft]
    rcases Nat.lt_trichotomy (i + 1) w with hlt | htop | hgt
    · cases a.msb <;> simp [coeff_X_pow, hlt, hlt.ne]
    · have hmsb : a.msb = a.getLsbD i := by
        rw [BitVec.msb_eq_getLsbD_last]
        congr 1
        omega
      cases h : a.getLsbD i <;> simp [hmsb, h, htop, coeff_X_pow]
    · have hout : a.getLsbD i = false := BitVec.getLsbD_of_ge a i (by omega)
      cases a.msb <;> simp [coeff_X_pow, hout, hgt.ne']

theorem polynomialOf_shiftFold (reduction a : BitVec w) :
    polynomialOf (shiftFold reduction a) =
      X * polynomialOf a + if a.msb then X ^ w + polynomialOf reduction else 0 := by
  rw [shiftFold_eq, polynomialOf_xor, polynomialOf_shiftLeft]
  cases a.msb with
  | false => simp
  | true =>
    have hcancel : (X ^ w + X ^ w : (ZMod 2)[X]) = 0 := CharTwo.add_self_eq_zero _
    simp only [if_true]
    rw [add_assoc, ← add_assoc (X ^ w), hcancel, zero_add]

end Words

namespace Degree128

/-- The polynomial `x^128 + x^7 + x^2 + x + 1`. -/
noncomputable def modulus : (ZMod 2)[X] := X ^ 128 + (X ^ 7 + X ^ 2 + X + 1)

theorem polynomialOf_one : polynomialOf one = 1 := by
  have h : one = BitVec.twoPow 128 0 := by decide
  rw [h, polynomialOf_twoPow (by decide), pow_zero]

theorem polynomialOf_two : polynomialOf 2#128 = X := by
  have h : 2#128 = BitVec.twoPow 128 1 := by decide
  rw [h, polynomialOf_twoPow (by decide), pow_one]

theorem polynomialOf_reduction : polynomialOf reduction = X ^ 7 + X ^ 2 + X + 1 := by
  have h : reduction = BitVec.twoPow 128 7 ^^^ BitVec.twoPow 128 2 ^^^ BitVec.twoPow 128 1 ^^^
      BitVec.twoPow 128 0 := by decide
  rw [h, polynomialOf_xor, polynomialOf_xor, polynomialOf_xor, polynomialOf_twoPow (by decide),
    polynomialOf_twoPow (by decide), polynomialOf_twoPow (by decide),
    polynomialOf_twoPow (by decide), pow_one, pow_zero]

theorem modulus_eq : modulus = X ^ 128 + polynomialOf reduction := by
  unfold modulus
  rw [polynomialOf_reduction]

theorem modulus_monic : modulus.Monic := by
  apply monic_X_pow_add
  compute_degree!

theorem natDegree_modulus : modulus.natDegree = 128 := by
  unfold modulus
  compute_degree!

/-! ## Residue classes -/

/-- The class of a word modulo `x^128 + x^7 + x^2 + x + 1`. -/
noncomputable def residue (a : Element) : AdjoinRoot modulus :=
  AdjoinRoot.mk modulus (polynomialOf a)

theorem polynomialOf_modByMonic (a : Element) : polynomialOf a %ₘ modulus = polynomialOf a := by
  rw [modByMonic_eq_self_iff modulus_monic, degree_eq_natDegree modulus_monic.ne_zero,
    natDegree_modulus]
  exact degree_polynomialOf_lt a

/-- A word is the remainder of every polynomial in its class. -/
theorem residue_eq_mk_iff {a : Element} {p : (ZMod 2)[X]} :
    residue a = AdjoinRoot.mk modulus p ↔ polynomialOf a = p %ₘ modulus := by
  rw [residue, AdjoinRoot.mk_eq_mk, ← modByMonic_eq_zero_iff_dvd modulus_monic, sub_modByMonic,
    polynomialOf_modByMonic, sub_eq_zero]

theorem residue_injective : Function.Injective residue := by
  intro a b h
  apply polynomialOf_injective
  rw [← polynomialOf_modByMonic b]
  exact residue_eq_mk_iff.mp h

@[simp] theorem residue_zero : residue 0#128 = 0 := by
  rw [residue, polynomialOf_zero, map_zero]

@[simp] theorem residue_one : residue one = 1 := by
  rw [residue, polynomialOf_one, map_one]

@[simp] theorem residue_two : residue 2#128 = AdjoinRoot.root modulus := by
  rw [residue, polynomialOf_two, AdjoinRoot.mk_X]

@[simp] theorem residue_xor (a b : Element) : residue (a ^^^ b) = residue a + residue b := by
  rw [residue, polynomialOf_xor, map_add, residue, residue]

@[simp] theorem residue_timesX (a : Element) :
    residue (timesX a) = AdjoinRoot.root modulus * residue a := by
  have hfold : polynomialOf (timesX a) =
      X * polynomialOf a + if a.msb then X ^ 128 + polynomialOf reduction else 0 :=
    polynomialOf_shiftFold reduction a
  rw [← modulus_eq] at hfold
  rw [residue, hfold, map_add, map_mul, AdjoinRoot.mk_X]
  cases a.msb with
  | false => simp [residue]
  | true => simp [residue]

/-- The class of `bits` bits of `a` from bit `i` on, taken as a polynomial of their own. -/
noncomputable def residueFrom (a : Element) (i bits : Nat) : AdjoinRoot modulus :=
  ∑ j ∈ Finset.range bits, if a.getLsbD (i + j) then AdjoinRoot.root modulus ^ j else 0

theorem residueFrom_succ (a : Element) (i bits : Nat) :
    residueFrom a i (bits + 1) = (if a.getLsbD i then 1 else 0) +
      AdjoinRoot.root modulus * residueFrom a (i + 1) bits := by
  rw [residueFrom, Finset.sum_range_succ', add_comm, residueFrom, Finset.mul_sum]
  congr 1
  apply Finset.sum_congr rfl
  intro j _
  have hj : i + (j + 1) = i + 1 + j := by omega
  rw [hj]
  cases a.getLsbD (i + 1 + j) with
  | false => simp
  | true => simp [pow_succ']

theorem residueFrom_zero (a : Element) : residueFrom a 0 128 = residue a := by
  rw [residue, polynomialOf, map_sum]
  apply Finset.sum_congr rfl
  intro j _
  rw [Nat.zero_add]
  cases a.getLsbD j with
  | false => simp
  | true => simp [monomial_one_right_eq_X_pow]

/-- The invariant of the product: the bits of `a` that are left, times the right factor as it has
been shifted. -/
theorem residue_mulFrom (a : Element) (bits : Nat) :
    ∀ (i : Nat) (b : Element),
      residue (mulFrom a bits i b) = residueFrom a i bits * residue b := by
  induction bits with
  | zero =>
    intro i b
    simp [mulFrom, residueFrom]
  | succ bits ih =>
    intro i b
    have hbit : residue (if a.getLsbD i then b else 0#128) =
        (if a.getLsbD i then 1 else 0) * residue b := by
      cases a.getLsbD i with
      | false => simp
      | true => simp
    rw [mulFrom, residue_xor, ih, residue_timesX, hbit, residueFrom_succ]
    ring

theorem residue_mul (a b : Element) : residue (mul a b) = residue a * residue b := by
  rw [mul, residue_mulFrom, residueFrom_zero]

/-! ## The ring of words -/

theorem polynomialOf_mul (a b : Element) :
    polynomialOf (mul a b) = (polynomialOf a * polynomialOf b) %ₘ modulus := by
  apply residue_eq_mk_iff.mp
  rw [residue_mul, residue, residue, map_mul]

protected theorem mul_comm (a b : Element) : mul a b = mul b a := by
  apply residue_injective
  rw [residue_mul, residue_mul]
  ring

protected theorem mul_assoc (a b c : Element) : mul (mul a b) c = mul a (mul b c) := by
  apply residue_injective
  rw [residue_mul, residue_mul, residue_mul, residue_mul]
  ring

theorem xor_mul (a b c : Element) : mul (a ^^^ b) c = mul a c ^^^ mul b c := by
  rw [Degree128.mul_comm _ c, mul_xor, Degree128.mul_comm c a, Degree128.mul_comm c b]

protected theorem mul_one (a : Element) : mul a one = a := by
  apply residue_injective
  rw [residue_mul, residue_one]
  ring

theorem timesX_eq_mul_two (a : Element) : timesX a = mul a 2#128 := by
  apply residue_injective
  rw [residue_timesX, residue_mul, residue_two]
  ring

/-- The bits of a product are the coefficients of the product of polynomials, reduced modulo
`x^128 + x^7 + x^2 + x + 1`; with sums of words, this makes the words a commutative ring, in which
the word 2 stands for `x`. -/
theorem mul_reduces_product :
    (∀ (a b : Element) (i : Nat), (mul a b).getLsbD i = true ↔
      ((polynomialOf a * polynomialOf b) %ₘ modulus).coeff i = 1) ∧
    (∀ a b, mul a b = mul b a) ∧
    (∀ a b c, mul (mul a b) c = mul a (mul b c)) ∧
    (∀ a b c, mul a (b ^^^ c) = mul a b ^^^ mul a c ∧ mul (b ^^^ c) a = mul b a ^^^ mul c a) ∧
    (∀ a, mul a one = a ∧ mul one a = a) ∧
    (∀ a, mul a zero = zero ∧ mul zero a = zero) ∧
    ∀ a, timesX a = mul a 2#128 := by
  refine ⟨?_, Degree128.mul_comm, Degree128.mul_assoc, ?_, ?_, ?_, timesX_eq_mul_two⟩
  · intro a b i
    rw [← polynomialOf_mul, coeff_polynomialOf_eq_one]
  · intro a b c
    exact ⟨mul_xor a b c, xor_mul b c a⟩
  · intro a
    exact ⟨Degree128.mul_one a, by rw [Degree128.mul_comm, Degree128.mul_one]⟩
  · intro a
    exact ⟨mul_zero a, by rw [Degree128.mul_comm]; exact mul_zero a⟩

end Degree128
end ExpandConvolute
