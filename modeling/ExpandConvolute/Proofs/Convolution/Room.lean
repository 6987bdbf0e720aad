import ExpandConvolute.Proofs.Convolution.Bounds
import ExpandConvolute.Proofs.Convolution.Image

/-!
# ExpandConvolute.Proofs.Convolution.Room

What a sweep needs, and no more. `Sweep` shows that a buffer with room is swept without a fault. Here
it is shown that a sweep which succeeds has had room, so that `HasRoom` is the exact condition
(`sweep_runs`, `apply_runs`), and that a sweep is never refused once its width is accepted.

The octet that tells is the first one of the last cell but one. The wrapping boundary is used there
as soon as there are octets at all, and the octet begins at the last cell.
-/

namespace ExpandConvolute
namespace Convolution

open Edit (Ensures RunsExactlyIf)

variable {σ : Type}

theorem step_ensures (A : Alphabet σ) (stepper : Stepper) (B : Boundary) {n width source : Nat}
    {cs : List UInt8} (h : spanOf width ≤ cs.length) :
    Ensures (step A stepper B width source cs) n (fun _ => B.Admits n width source cs) := by
  rw [step_eq_bytewise A B source stepper h]
  exact bytewise_ensures A B n width source cs

/-- The octets of every position that wraps around have ended at numbers. -/
theorem sweepFrom_ensures (A : Alphabet σ) (stepper : Stepper) (n main count : Nat) :
    ∀ (source : Nat) (w : Windows), Ensures (sweepFrom A stepper main count source w) n (fun _ =>
      ∀ k, source ≤ k → k < source + count → main ≤ k →
        Boundary.wrapping.CountsOctets n k (w.width / 8)) := by
  induction count with
  | zero =>
    intro source w
    exact Ensures.pure fun k hk hlt => absurd hlt (Nat.not_lt.mpr hk)
  | succ count ih =>
    intro source w
    rw [sweepFrom]
    refine (Ensures.forM w.report fun event _ => Ensures.emit event).bind fun _ _ => ?_
    refine (step_ensures A stepper _ (Nat.le_of_eq w.length_next.symm)).bind fun _ hadmits => ?_
    refine (ih (source + 1) w.next.2).mono fun _ hrest k hk hlt hmain => ?_
    by_cases hsource : k = source
    · subst hsource
      have hcounts := hadmits.counts
      rwa [if_neg (Nat.not_lt.mpr hmain)] at hcounts
    · have hnext := hrest k (by omega) (by omega) hmain
      rwa [w.width_next] at hnext

section Whole

variable (C : Convolution) (A : Alphabet σ) (n : Nat)

theorem sweepWith_ensures (stepper : Stepper) {w : Windows} (hw : w.width = C.width) :
    Ensures (C.sweepWith A stepper w) n (fun _ => C.HasRoom n) := by
  refine Ensures.extent.bind fun size hsize => ?_
  subst hsize
  refine (sweepFrom_ensures A stepper size (size - (C.width + 1)) size 0 w).mono
    fun _ hcounts hwidth => ?_
  rw [hw] at hcounts
  by_cases hsize : 2 ≤ size
  · have hlast := hcounts (size - 2) (Nat.zero_le _) (by omega) (by omega) 0 (by omega) rfl
    rw [Nat.mul_zero, Nat.add_zero, Nat.mod_eq_of_lt (by omega)] at hlast
    omega
  · have hlimit : 10 ≤ sizeLimit := by decide
    omega

theorem sweep_ensures {stepper : Stepper} (hs : C.Accepts stepper) (seed : Seed) :
    Ensures (C.sweep A stepper seed) n (fun _ => C.HasRoom n) := by
  rw [C.sweep_eq_sweepWith A hs seed]
  exact C.sweepWith_ensures A n stepper rfl

theorem apply_ensures (seed : Seed) : Ensures (C.apply A seed) n (fun _ => C.HasRoom n) := by
  have hall : Ensures (C.apply A seed) n (fun _ => ∀ s ∈ C.seeds seed, C.HasRoom n) :=
    Ensures.forM _ fun s _ => C.sweep_ensures A n C.accepts_stepper s
  refine hall.mono fun _ h => h seed ?_
  rw [seeds]
  split
  · exact List.mem_cons_self
  · exact List.mem_cons_self

end Whole

section Runs

variable (C : Convolution) (A : Alphabet σ) (seed : Seed) (x : Buffer σ)

theorem sweep_runs {stepper : Stepper} (hs : C.Accepts stepper) :
    RunsExactlyIf (C.sweep A stepper seed) x (C.HasRoom x.size) := by
  refine .of_ensures (fun hroom => ?_) (C.sweep_ensures A x.size hs seed)
  have hrun := sweep_yields A x.size_lt hs hroom seed x.toVector
  rw [Buffer.ofVector_toVector] at hrun
  exact ⟨_, _, _, hrun⟩

/-- A convolution is at fault exactly on the buffers without room. -/
theorem apply_runs : RunsExactlyIf (C.apply A seed) x (C.HasRoom x.size) := by
  refine .of_ensures (fun hroom => ?_) (C.apply_ensures A x.size seed)
  exact ⟨_, _, _, apply_yields_image A seed hroom⟩

end Runs

end Convolution
end ExpandConvolute
