import ExpandConvolute.Proofs.BinaryField.Linear
import Mathlib.Logic.Function.Basic

/-!
# ExpandConvolute.Proofs.BinaryField.Quotient

The product with `x` can be undone in both fields.

* `shiftUnfold` is the quotient by `x` in a field of any degree. A reduction with constant term 1
  leaves a mark in the lowest bit exactly if it has been folded in, so that bit tells which bit had
  left the word.
* `shiftFold_bijective` and, for the two fields of the library, `timesX_bijective`.
-/

namespace ExpandConvolute

section Unfold

variable {w : Nat}

def shiftUnfold (reduction b : BitVec (w + 1)) : BitVec (w + 1) :=
  BitVec.cons (b.getLsbD 0)
    ((b ^^^ (if b.getLsbD 0 then reduction else 0#(w + 1))).extractLsb' 1 w)

variable {reduction : BitVec (w + 1)} (hr : reduction.getLsbD 0 = true)

include hr

/-- The lowest bit after a product with `x` is the bit that has left the word. -/
theorem getLsbD_zero_shiftFold (a : BitVec (w + 1)) :
    (shiftFold reduction a).getLsbD 0 = a.msb := by
  rw [shiftFold_eq, BitVec.getLsbD_xor]
  cases a.msb with
  | false => simp
  | true => simp [hr]

theorem shiftUnfold_shiftFold (a : BitVec (w + 1)) :
    shiftUnfold reduction (shiftFold reduction a) = a := by
  have hcancel : shiftFold reduction a ^^^ (if a.msb then reduction else 0#(w + 1)) = a <<< 1 := by
    rw [shiftFold_eq, BitVec.xor_assoc, BitVec.xor_self, BitVec.xor_zero]
  rw [shiftUnfold, getLsbD_zero_shiftFold hr, hcancel]
  apply BitVec.eq_of_getLsbD_eq
  intro i hi
  rw [BitVec.getLsbD_cons, BitVec.getLsbD_extractLsb', BitVec.getLsbD_shiftLeft]
  by_cases htop : i = w
  · subst htop
    simp [BitVec.msb_eq_getLsbD_last]
  · have hlow : i < w := by omega
    simp [htop, hlow, Nat.add_comm 1 i]

theorem shiftFold_shiftUnfold (b : BitVec (w + 1)) :
    shiftFold reduction (shiftUnfold reduction b) = b := by
  have hmsb : (shiftUnfold reduction b).msb = b.getLsbD 0 := BitVec.msb_cons
  -- without the mark nothing is left in the lowest bit, so no bit is lost by the shift
  let c := b ^^^ (if b.getLsbD 0 then reduction else 0#(w + 1))
  have hc : c.getLsbD 0 = false := by
    simp only [c, BitVec.getLsbD_xor]
    cases b.getLsbD 0 with
    | false => simp
    | true => simp [hr]
  have hshift : shiftUnfold reduction b <<< 1 = c := by
    apply BitVec.eq_of_getLsbD_eq
    intro i hi
    rw [BitVec.getLsbD_shiftLeft, shiftUnfold, BitVec.getLsbD_cons, BitVec.getLsbD_extractLsb']
    cases i with
    | zero => simpa using hc.symm
    | succ i =>
      have hlow : i < w := by omega
      have hne : i ≠ w := by omega
      simp [c, hi, hlow, hne, Nat.add_comm 1 i]
  rw [shiftFold_eq, hmsb, hshift]
  simp only [c]
  rw [BitVec.xor_assoc, BitVec.xor_self, BitVec.xor_zero]

theorem shiftFold_bijective : Function.Bijective (shiftFold reduction) :=
  Function.bijective_iff_has_inverse.mpr
    ⟨shiftUnfold reduction, shiftUnfold_shiftFold hr, shiftFold_shiftUnfold hr⟩

end Unfold

namespace Degree8

theorem timesX_bijective : Function.Bijective timesX := by
  have hfold : Function.Bijective (shiftFold reduction.toBitVec) := shiftFold_bijective (by decide)
  constructor
  · intro a b hab
    have h := congrArg UInt8.toBitVec hab
    rw [toBitVec_timesX, toBitVec_timesX] at h
    exact UInt8.toBitVec_inj.mp (hfold.injective h)
  · intro b
    obtain ⟨v, hv⟩ := hfold.surjective b.toBitVec
    refine ⟨⟨v⟩, UInt8.toBitVec_inj.mp ?_⟩
    rw [toBitVec_timesX]
    exact hv

end Degree8

namespace Degree128

theorem timesX_bijective : Function.Bijective timesX :=
  @shiftFold_bijective 127 reduction (by decide)

end Degree128
end ExpandConvolute
