import ExpandConvolute.Proofs.Convolution.Gates
import ExpandConvolute.Proofs.Convolution.Packed

/-!
# ExpandConvolute.Proofs.Convolution.Position

The step of one position. Reading the coefficient bytes one by one performs `Recurrence.position`
with the lowest bits of the number that the bytes stand for (`bytewise_yields`), and so does every
other form of the step (`step_yields`).
-/

namespace ExpandConvolute
namespace Convolution

open Edit (Yields)
open Recurrence (place gates gates_append place_lt place_zero position_eq_gates)

variable {σ : Type} {m : Nat}

section Bytes

variable (A : Alphabet σ) (hm : m < sizeLimit) (i : Fin m)

theorem octetSteps_yields (B : Boundary) (cs : List UInt8) :
    ∀ (a : Nat) (x : Vector σ m), B.Fits m (i.val + (1 + (a + 8 * cs.length))) →
      (∀ k, k < cs.length → B.Counts (place i (1 + (a + 8 * k))).val) →
      Yields (octetSteps A B m i.val cs (place i (1 + a)).val) (.ofVector x hm)
        (place i (1 + (a + 8 * cs.length))).val
        (.ofVector (gates A i a (lowBits (8 * cs.length) (Octets.value cs)) x) hm) [] := by
  induction cs with
  | nil =>
    intro a x _ _
    exact .pure _ _
  | cons c cs ih =>
    intro a x hf hn
    have hl : a + 8 * (c :: cs).length = a + 8 + 8 * cs.length := by
      rw [List.length_cons]
      omega
    have hb : 8 * (c :: cs).length = 8 + 8 * cs.length := by omega
    have hfirst : B.Counts (place i (1 + a)).val := hn 0 (Nat.zero_lt_succ _)
    have hrest : ∀ k, k < cs.length → B.Counts (place i (1 + (a + 8 + 8 * k))).val := by
      intro k hk
      have hnext : a + 8 + 8 * k = a + 8 * (k + 1) := by omega
      rw [hnext]
      exact hn (k + 1) (Nat.succ_lt_succ hk)
    rw [hl] at hf ⊢
    rw [octetSteps, hb, lowBits_value_cons, gates_append, length_lowBits]
    refine (octetStep_yields A hm i B a c x (hf.mono (by omega)) hfirst).andThen ?_
    rw [Boundary.reduce_of_lt B (place_lt i _)]
    exact ih (a + 8) _ hf hrest

end Bytes

section Steps

variable (A : Alphabet σ) (hm : m < sizeLimit) (B : Boundary) (i : Fin m) {width : Nat}
  (cs : List UInt8) (x : Vector σ m)

/-- The gates of whole bytes, then those of the bits that are left. -/
theorem gates_bytes (width n : Nat) :
    gates A i 0 (lowBits width n) x =
      gates A i (8 * (width / 8)) (lowBits (width % 8) (n / 2 ^ (8 * (width / 8))))
        (gates A i 0 (lowBits (8 * (width / 8)) n) x) := by
  have hw : lowBits width n = lowBits (8 * (width / 8) + width % 8) n := by rw [Nat.div_add_mod]
  rw [hw, lowBits_add, gates_append, length_lowBits, Nat.zero_add]

theorem bytewise_yields (hf : B.Fits m (i.val + (1 + width))) (hc : spanOf width ≤ cs.length)
    (hn : B.CountsOctets m i.val (width / 8)) :
    Yields (bytewise A B width i.val cs) (.ofVector x hm) ()
      (.ofVector (Recurrence.position A width (Octets.value cs).testBit x i) hm) [] := by
  simp only [spanOf] at hc
  have hw : 8 * (width / 8) + width % 8 = width := Nat.div_add_mod width 8
  have hnext := next_yields hm i B 0 (hf.mono (by omega)) (.ofVector x hm)
  rw [place_zero] at hnext
  have hwhole : (cs.take (width / 8)).length = width / 8 := by
    rw [List.length_take]
    omega
  have hcounts : ∀ k, k < (cs.take (width / 8)).length →
      B.Counts (place i (1 + (0 + 8 * k))).val := by
    intro k hk
    have hk := hn k (hwhole ▸ hk)
    rwa [Nat.add_assoc, ← Nat.zero_add (8 * k)] at hk
  have hbytes := octetSteps_yields A hm i B (cs.take (width / 8)) 0 x
    (hf.mono (by rw [hwhole]; omega)) hcounts
  rw [hwhole, lowBits_value_take (Nat.le_refl _), Nat.zero_add] at hbytes
  rw [position_eq_gates, ← lowBits, gates_bytes]
  refine (Yields.extent _).andThen ?_
  rw [Buffer.size_ofVector]
  refine hnext.andThen ?_
  show Yields (if cs.length < width / 8 then _ else _) _ _ _ _
  rw [if_neg (by omega)]
  refine hbytes.andThen ?_
  by_cases hr : width % 8 = 0
  · -- no bits are left, and the next target is already the closing one
    have he : 8 * (width / 8) = width := by omega
    rw [if_pos hr, hr, he]
    exact close_yields A _ hm i width
  · have hspan : width / 8 < cs.length := by omega
    obtain ⟨last, hlast⟩ : ∃ last, cs[width / 8]? = some last :=
      ⟨cs[width / 8], List.getElem?_eq_getElem hspan⟩
    have hwalk := walk_yields A hm i B (lowBits (width % 8) last.toNat) (8 * (width / 8))
      (gates A i 0 (lowBits (8 * (width / 8)) (Octets.value cs)) x)
    rw [length_lowBits, hw] at hwalk
    rw [if_neg hr, hlast, lowBits_value_drop hlast (by omega)]
    exact (hwalk hf).andThen (close_yields A _ hm i width)

theorem step_yields (stepper : Stepper) (hf : B.Fits m (i.val + (1 + width)))
    (hc : spanOf width ≤ cs.length) (hn : B.CountsOctets m i.val (width / 8)) :
    Yields (step A stepper B width i.val cs) (.ofVector x hm) ()
      (.ofVector (Recurrence.position A width (Octets.value cs).testBit x i) hm) [] := by
  rw [step_eq_bytewise A B i.val stepper hc]
  exact bytewise_yields A hm B i cs x hf hc hn

end Steps

end Convolution
end ExpandConvolute
