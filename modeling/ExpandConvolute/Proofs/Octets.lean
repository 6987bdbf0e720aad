import ExpandConvolute.Octets
import Mathlib.Algebra.Group.Nat.Defs

/-!
# ExpandConvolute.Proofs.Octets

The number that a byte string stands for.

* `value_littleEndian`, `toWord_ofWord`: reading back what has been written.
* `value_append`, `value_take` and `value_drop`: where a byte string is cut in two, the number is
  cut at the same digit.
* `testBit_value`: bit `a` of the number is bit `a % 8` of byte `a / 8`.
-/

namespace ExpandConvolute
namespace Octets

theorem value_littleEndian (count n : Nat) : value (littleEndian count n) = n % 256 ^ count := by
  induction count generalizing n with
  | zero => simp [littleEndian, value, Nat.mod_one]
  | succ count ih =>
    rw [Nat.pow_succ', Nat.mod_mul, ← ih (n / 256)]
    simp [littleEndian, value]

theorem value_append (as bs : List UInt8) :
    value (as ++ bs) = value as + 256 ^ as.length * value bs := by
  induction as with
  | nil => simp [value]
  | cons a as ih =>
    rw [List.cons_append, value, value, ih, List.length_cons, Nat.pow_succ', Nat.mul_add,
      Nat.add_assoc, Nat.mul_assoc]

theorem value_drop (bs : List UInt8) (k : Nat) : value (bs.drop k) = value bs / 256 ^ k := by
  induction k generalizing bs with
  | zero => simp
  | succ k ih =>
    cases bs with
    | nil => simp [value]
    | cons b bs =>
      have hb := b.toNat_lt
      rw [List.drop_succ_cons, ih, value, Nat.pow_succ', ← Nat.div_div_eq_div_mul]
      congr 1
      omega

theorem value_take (bs : List UInt8) (k : Nat) : value (bs.take k) = value bs % 256 ^ k := by
  induction k generalizing bs with
  | zero => simp [value, Nat.mod_one]
  | succ k ih =>
    cases bs with
    | nil => simp [value]
    | cons b bs =>
      have hb := b.toNat_lt
      rw [List.take_succ_cons, value, value, ih, Nat.pow_succ', Nat.mod_mul]
      have hq : (b.toNat + 256 * value bs) / 256 = value bs := by omega
      have hr : (b.toNat + 256 * value bs) % 256 = b.toNat := by omega
      rw [hq, hr]

theorem testBit_value (bs : List UInt8) (a : Nat) :
    (value bs).testBit a = (bs[a / 8]?.getD 0).toNat.testBit (a % 8) := by
  induction bs generalizing a with
  | nil => simp [value]
  | cons b bs ih =>
    have hb : b.toNat < 2 ^ 8 := b.toNat_lt
    have hv : value (b :: bs) = 2 ^ 8 * value bs + b.toNat := by rw [value]; omega
    rw [hv, Nat.testBit_two_pow_mul_add _ hb]
    by_cases h : a < 8
    · rw [if_pos h, Nat.div_eq_of_lt h, Nat.mod_eq_of_lt h]
      rfl
    · obtain ⟨c, rfl⟩ : ∃ c, a = c + 8 := ⟨a - 8, by omega⟩
      rw [if_neg h, Nat.add_sub_cancel, ih]
      simp

theorem toWord_ofWord (w : BitVec 128) : toWord (ofWord w) = w := by
  apply BitVec.eq_of_toNat_eq
  simp only [toWord, ofWord, value_littleEndian, BitVec.toNat_ofNat]
  have := w.isLt
  omega

end Octets
end ExpandConvolute
