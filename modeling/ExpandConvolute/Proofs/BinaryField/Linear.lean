import ExpandConvolute.BinaryField.Degree128
import ExpandConvolute.BinaryField.Degree8

/-!
# ExpandConvolute.Proofs.BinaryField.Linear

The products of both fields respect sums.

* `shiftFold` is the product with `x` in a field of any degree: shift, and fold the bit that leaves
  the word back in. That bit of a sum is the sum of the two bits, so two foldings cancel
  (`shiftFold_xor`).
* `Degree128.mul` is linear in its right factor (`mul_xor`) and commutes with the product with `x`
  (`mul_timesX`).
-/

namespace ExpandConvolute

section Fold

variable {w : Nat}

def shiftFold (reduction a : BitVec w) : BitVec w :=
  if a.msb then (a <<< 1) ^^^ reduction else a <<< 1

theorem xor_xor_xor_comm (a b c d : BitVec w) :
    (a ^^^ b) ^^^ (c ^^^ d) = (a ^^^ c) ^^^ (b ^^^ d) := by
  rw [BitVec.xor_assoc, ← BitVec.xor_assoc b, BitVec.xor_comm b c, BitVec.xor_assoc,
    ← BitVec.xor_assoc a]

theorem shiftFold_eq (reduction a : BitVec w) :
    shiftFold reduction a = (a <<< 1) ^^^ (if a.msb then reduction else 0#w) := by
  unfold shiftFold
  cases a.msb with
  | false => exact BitVec.xor_zero.symm
  | true => rfl

theorem shiftFold_xor (reduction a b : BitVec w) :
    shiftFold reduction (a ^^^ b) = shiftFold reduction a ^^^ shiftFold reduction b := by
  have hbit : (if a.msb ^^ b.msb then reduction else 0#w) =
      (if a.msb then reduction else 0#w) ^^^ (if b.msb then reduction else 0#w) := by
    cases a.msb <;> cases b.msb <;> simp
  rw [shiftFold_eq, shiftFold_eq, shiftFold_eq, BitVec.msb_xor, BitVec.shiftLeft_xor_distrib, hbit,
    xor_xor_xor_comm]

end Fold

namespace Degree8

theorem top_bit (v : BitVec 8) : v &&& 0x80#8 = 0#8 ↔ v.msb = false := by
  revert v
  decide

theorem toBitVec_timesX (b : UInt8) :
    (timesX b).toBitVec = shiftFold reduction.toBitVec b.toBitVec := by
  have h : b &&& 0x80 = 0 ↔ b.toBitVec.msb = false := by
    rw [← top_bit, ← UInt8.toBitVec_inj]
    rfl
  unfold timesX shiftFold
  cases hb : b.toBitVec.msb with
  | false => rw [if_pos (h.mpr hb)]; rfl
  | true => rw [if_neg (by rw [h, hb]; decide)]; rfl

theorem timesX_xor (a b : UInt8) : timesX (a ^^^ b) = timesX a ^^^ timesX b := by
  apply UInt8.toBitVec_inj.mp
  rw [UInt8.toBitVec_xor, toBitVec_timesX, toBitVec_timesX, toBitVec_timesX, UInt8.toBitVec_xor,
    shiftFold_xor]

theorem timesX_zero : timesX 0 = 0 := by decide

end Degree8

namespace Degree128

theorem timesX_xor (a b : Element) : timesX (a ^^^ b) = timesX a ^^^ timesX b :=
  shiftFold_xor reduction a b

theorem timesX_zero : timesX 0#128 = 0#128 := by decide

theorem mulFrom_xor (a : Element) (bits : Nat) :
    ∀ (i : Nat) (b c : Element),
      mulFrom a bits i (b ^^^ c) = mulFrom a bits i b ^^^ mulFrom a bits i c := by
  induction bits with
  | zero =>
    intro i b c
    exact BitVec.xor_self.symm
  | succ bits ih =>
    intro i b c
    have hbit : (if a.getLsbD i then b ^^^ c else 0#128) =
        (if a.getLsbD i then b else 0#128) ^^^ (if a.getLsbD i then c else 0#128) := by
      cases a.getLsbD i with
      | false => exact BitVec.xor_self.symm
      | true => rfl
    rw [mulFrom, mulFrom, mulFrom, timesX_xor, ih, hbit, xor_xor_xor_comm]

theorem mulFrom_timesX (a : Element) (bits : Nat) :
    ∀ (i : Nat) (b : Element), mulFrom a bits i (timesX b) = timesX (mulFrom a bits i b) := by
  induction bits with
  | zero =>
    intro i b
    exact timesX_zero.symm
  | succ bits ih =>
    intro i b
    rw [mulFrom, mulFrom, timesX_xor, ih]
    congr 1
    cases a.getLsbD i with
    | false => exact timesX_zero.symm
    | true => rfl

theorem mul_xor (a b c : Element) : mul a (b ^^^ c) = mul a b ^^^ mul a c :=
  mulFrom_xor a 128 0 b c

theorem mul_timesX (a b : Element) : mul a (timesX b) = timesX (mul a b) :=
  mulFrom_timesX a 128 0 b

theorem mul_zero (a : Element) : mul a 0#128 = 0#128 := by
  have h := mul_xor a 0#128 0#128
  rwa [BitVec.xor_self, BitVec.xor_self] at h

end Degree128
end ExpandConvolute
