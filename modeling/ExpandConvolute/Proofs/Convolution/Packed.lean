import ExpandConvolute.Convolution.Sweep
import ExpandConvolute.Proofs.Convolution.Bits

/-!
# ExpandConvolute.Proofs.Convolution.Packed

Reading coefficient bytes one at a time and loading them as one number first are the same run of a
step: same writes, same result, and the same fault if there is one.

* `packedSteps_value`: consuming the number that a byte string stands for takes its bytes in
  order, and the number left is that of the bytes left.
* `packed_eq_bytewise`: with enough coefficient bytes for the width, the two forms of a step are
  equal as edits, for any width, under either boundary and on buffers of any size.
-/

namespace ExpandConvolute
namespace Convolution

variable {σ : Type}

section Packed

variable (A : Alphabet σ) (B : Boundary) (source : Nat)

theorem packedSteps_value (size : Nat) (cs : List UInt8) :
    ∀ (count target : Nat), count ≤ cs.length →
      packedSteps A B size source count (Octets.value cs) target =
        octetSteps A B size source (cs.take count) target >>= fun target =>
          pure (Octets.value (cs.drop count), target) := by
  induction cs with
  | nil =>
    intro count target hcount
    obtain rfl : count = 0 := Nat.le_zero.mp hcount
    rfl
  | cons c cs ih =>
    intro count target hcount
    cases count with
    | zero => simp [packedSteps, octetSteps]
    | succ count =>
      have hc := c.toNat_lt
      have hfirst : UInt8.ofNat (Octets.value (c :: cs)) = c := by
        apply UInt8.toNat_inj.mp
        rw [Octets.value, UInt8.toNat_ofNat']
        omega
      have hrest : Octets.value (c :: cs) / 256 = Octets.value cs := by
        rw [Octets.value]
        omega
      rw [packedSteps, List.take_succ_cons, List.drop_succ_cons, octetSteps, hfirst, hrest,
        bind_assoc]
      apply bind_congr
      intro target
      exact ih count _ (Nat.le_of_succ_le_succ hcount)

/-- The bits that are left after the whole bytes are those of the next byte, if there are any. -/
theorem value_take_drop {width : Nat} {cs : List UInt8} (h : spanOf width ≤ cs.length)
    (hr : width % 8 ≠ 0) :
    ∃ last, cs[width / 8]? = some last ∧
      Octets.value ((cs.take (spanOf width)).drop (width / 8)) = last.toNat := by
  have hspan : spanOf width = width / 8 + 1 := by
    simp only [spanOf]
    omega
  have hlt : width / 8 < cs.length := by omega
  refine ⟨cs[width / 8], List.getElem?_eq_getElem hlt, ?_⟩
  rw [hspan, List.drop_take, Nat.add_sub_cancel_left, List.drop_eq_getElem_cons hlt,
    List.take_succ_cons, List.take_zero, Octets.value, Octets.value, Nat.mul_zero, Nat.add_zero]

theorem packed_eq_bytewise {width : Nat} {cs : List UInt8} (h : spanOf width ≤ cs.length) :
    packed A B width source cs = bytewise A B width source cs := by
  have hwhole : width / 8 ≤ spanOf width := by
    simp only [spanOf]
    omega
  rw [packed, bytewise]
  apply bind_congr
  intro size
  show (if cs.length < spanOf width then _ else _) = _
  rw [if_neg (by omega)]
  apply bind_congr
  intro target
  show _ = if cs.length < width / 8 then _ else _
  rw [if_neg (by omega), packedSteps_value A B source size _ _ _ (by rw [List.length_take]; omega),
    bind_assoc, List.take_take, Nat.min_eq_left hwhole]
  apply bind_congr
  intro target
  rw [pure_bind]
  by_cases hr : width % 8 = 0
  · rw [if_pos hr, hr]
    rfl
  · obtain ⟨last, hlast, hvalue⟩ := value_take_drop h hr
    rw [if_neg hr, hlast]
    show walk A B size source (lowBits _ _) _ >>= _ = _
    rw [hvalue]

theorem step_eq_bytewise (stepper : Stepper) {width : Nat} {cs : List UInt8}
    (h : spanOf width ≤ cs.length) :
    step A stepper B width source cs = bytewise A B width source cs := by
  cases stepper with
  | bytewise => rfl
  | packed _ => exact packed_eq_bytewise A B source h

end Packed

end Convolution
end ExpandConvolute
