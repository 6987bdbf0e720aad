import ExpandConvolute.Proofs.Code.Accepted
import ExpandConvolute.Proofs.Convolution.Room
import ExpandConvolute.Proofs.Session.AllOrNothing

/-!
# ExpandConvolute.Proofs.Code.Refusals

Every refusal leaves things as they were. The operations are chains of steps that may fail, and
some of them write before the last of these steps: a convolution may make two sweeps, an encoding
convolves before it expands, an expansion fills its buffer before it draws. What is checked first
is all that can be violated, so nothing is refused once something has been written.

* `sweep_packed_allOrNothing`, `expand_allOrNothing` and the lemmas about the operations of a code:
  the preconditions of each operation, in the order in which they are checked.
* `apply_allOrNothing`, `absorb_picks_allOrNothing`, `expand_within_allOrNothing`: what follows the
  first write has no preconditions.

Sweeps are the only steps that need room. Without it they may stop in the middle, but as a fault and
not as a refusal (`Proofs.Convolution.Room`).
-/

namespace ExpandConvolute

open Edit (Yields Refuses Ensures AllOrNothing)

variable {σ : Type}

namespace Convolution

variable (C : Convolution) (A : Alphabet σ) (seed : Seed) (x : Buffer σ)

theorem sweep_allOrNothing {stepper : Stepper} (hs : C.Accepts stepper) :
    AllOrNothing (C.sweep A stepper seed) x (C.HasRoom x.size) [] :=
  .of_ensures (C.sweep_ensures A x.size hs seed) (C.sweep_runs A seed x hs).runs_iff.mpr

theorem sweep_refuses_width {width : Nat} (h : ¬ width = C.width) :
    Refuses (C.sweep A (.packed width) seed) x (.widthMismatch C.width width) := by
  show Refuses (if width ≠ C.width then _ else _) x _
  rw [if_pos h]
  exact (Refuses.refuse _ x).bind _

/-- The width is checked before the buffer is looked at, so an empty one is refused as well. -/
theorem sweep_packed_allOrNothing (width : Nat) :
    AllOrNothing (C.sweep A (.packed width) seed) x (C.HasRoom x.size)
      [⟨width = C.width, .widthMismatch C.width width⟩] := by
  apply AllOrNothing.cons
  · exact C.sweep_refuses_width A seed x
  · intro hwidth
    apply C.sweep_allOrNothing A seed x
    rintro _ ⟨⟩
    exact hwidth

theorem apply_allOrNothing : AllOrNothing (C.apply A seed) x (C.HasRoom x.size) [] :=
  .of_ensures (C.apply_ensures A x.size seed) (C.apply_runs A seed x).runs_iff.mpr

end Convolution

namespace Expansion

variable (E : Expansion) (A : Alphabet σ) (input y : Buffer σ)

theorem expand_allOrNothing (mode : Mode) :
    AllOrNothing (E.expand A mode input) y True
      [.length E.sourceSize input.size, .length E.messageSize y.size] :=
  .cons (E.expand_refuses_input A mode) fun hinput =>
    .cons (E.expand_refuses_output A mode hinput) fun hy =>
      .of_yields (E.expand_yields A mode hinput.symm hy.symm)

theorem absorb_picks_allOrNothing (hinput : input.size = E.sourceSize)
    (hy : y.size = E.messageSize) :
    AllOrNothing (Edit.orFault E.picks >>= fun picks => picks.forM (absorb A input)) y True [] :=
  .of_yields (E.absorb_picks_yields A hinput hy)

end Expansion

namespace Code

variable (code : Code) (A : Alphabet σ)

section Halves

variable {n : Nat} (hn : n = code.codeSize)

include hn

theorem convolve_ensures : Ensures (code.convolve A) n (fun _ => True) := by
  refine Ensures.extent.bind fun size hsize => ?_
  refine (Ensures.require_length (by rw [hsize, hn])).bind fun _ _ => ?_
  refine Ensures.on_suffix fun _ => ?_
  exact (code.convolution.apply_ensures A _ _).mono fun _ _ => trivial

theorem expand_within_ensures : Ensures (code.expandWithin A) n (fun _ => True) := by
  apply Ensures.of_yields
  intro x hx
  exact ⟨_, _, _, code.expand_within_yields A (hx.trans hn), (Buffer.size_overlay ..).trans hx,
    trivial⟩

theorem encode_within_ensures : Ensures (code.encodeWithin A) n (fun _ => True) := by
  have happly : ∀ k, Ensures (code.convolution.apply A code.parameters.seed) k (fun _ => True) :=
    fun k => (code.convolution.apply_ensures A k _).mono fun _ _ => trivial
  have hsecond := code.expand_within_ensures A hn
  refine Ensures.extent.bind fun size hsize => ?_
  refine (Ensures.require_length (by rw [hsize, hn])).bind fun _ _ => ?_
  refine Ensures.extent.bind fun size _ => ?_
  refine (Ensures.emit _).bind fun _ _ => ?_
  cases hs : code.parameters.systematic with
  | true => exact (Ensures.on_suffix fun _ => happly _).bind fun _ _ => hsecond
  | false => exact (happly n).bind fun _ _ => hsecond

end Halves

variable (x y : Buffer σ)

theorem convolve_allOrNothing :
    AllOrNothing (code.convolve A) x code.HasRoom [.length code.codeSize x.size] :=
  .cons (code.convolve_refuses A) fun hx =>
    .of_ensures (code.convolve_ensures A (Eq.symm hx)) fun hroom =>
      ⟨_, _, _, code.convolve_yields A (Eq.symm hx) hroom⟩

theorem expand_onto_allOrNothing :
    AllOrNothing (code.expandOnto A x) y True
      [.length code.codeSize x.size, .length code.messageSize y.size] :=
  .cons (fun hx => code.expand_onto_refuses_codeword A hx y) fun hx =>
    .cons (code.expand_onto_refuses_message A hx.symm) fun hy =>
      .of_yields (code.expand_onto_yields A hx.symm hy.symm)

theorem encode_within_allOrNothing :
    AllOrNothing (code.encodeWithin A) x code.HasRoom [.length code.codeSize x.size] :=
  .cons (code.encode_within_refuses A) fun hx =>
    .of_ensures (code.encode_within_ensures A (Eq.symm hx)) fun hroom =>
      ⟨_, _, _, code.encode_within_yields A (Eq.symm hx) hroom⟩

theorem expand_within_allOrNothing (hx : x.size = code.codeSize) :
    AllOrNothing (code.expandWithin A) x True [] :=
  .of_yields (code.expand_within_yields A hx)

theorem parts_eq_error_iff (failure : Failure) :
    code.parts x = .error failure ↔ ∃ r, failure = .refused r ∧
      FirstViolated
        [⟨code.parameters.systematic = true, .notSystematic⟩, .length code.codeSize x.size] r := by
  simp only [firstViolated_cons, firstViolated_nil, Precondition.length, and_false, or_false]
  obtain ⟨hs, hx, hparts⟩ | ⟨hs, hx, hparts⟩ | ⟨hs, hparts⟩ := code.parts_cases x
  · simp [hparts, hs, hx]
  · simp [hparts, hs, hx, eq_comm]
  · simp [hparts, hs, eq_comm]

/-- An operation is refused exactly if one of its preconditions does not hold. It reports the first
of them that is violated and leaves its buffer and the log as they were. A codeword that is cut in
parts is only read. Once an operation has begun to write there is nothing left to violate: a
convolution, with one sweep or two, the second half of an encoding and what follows the start of an
expansion have no preconditions. Sweeps need room to succeed; nothing else that is not refused
fails. -/
theorem refusal_changes_nothing (code : Code) (C : Convolution) (E : Expansion) (A : Alphabet σ)
    (seed : Seed) (x y : Buffer σ) :
    AllOrNothing (code.convolve A) x code.HasRoom [.length code.codeSize x.size] ∧
    AllOrNothing (code.expandOnto A x) y True
      [.length code.codeSize x.size, .length code.messageSize y.size] ∧
    (∀ failure, code.parts x = .error failure ↔ ∃ r, failure = .refused r ∧
      FirstViolated
        [⟨code.parameters.systematic = true, .notSystematic⟩,
          .length code.codeSize x.size] r) ∧
    AllOrNothing (code.encodeWithin A) x code.HasRoom [.length code.codeSize x.size] ∧
    (∀ mode, AllOrNothing (E.expand A mode x) y True
      [.length E.sourceSize x.size, .length E.messageSize y.size]) ∧
    AllOrNothing (C.sweep A .bytewise seed) x (C.HasRoom x.size) [] ∧
    (∀ width, AllOrNothing (C.sweep A (.packed width) seed) x (C.HasRoom x.size)
      [⟨width = C.width, .widthMismatch C.width width⟩]) ∧
    AllOrNothing (C.apply A seed) x (C.HasRoom x.size) [] ∧
    (x.size = code.codeSize → AllOrNothing (code.expandWithin A) x True []) ∧
    (x.size = E.sourceSize → y.size = E.messageSize →
      AllOrNothing (Edit.orFault E.picks >>= fun picks => picks.forM (Expansion.absorb A x)) y
        True []) := by
  have hbytewise : C.Accepts .bytewise := nofun
  exact ⟨code.convolve_allOrNothing A x, code.expand_onto_allOrNothing A x y,
    code.parts_eq_error_iff x, code.encode_within_allOrNothing A x, E.expand_allOrNothing A x y,
    C.sweep_allOrNothing A seed x hbytewise, C.sweep_packed_allOrNothing A seed x,
    C.apply_allOrNothing A seed x, code.expand_within_allOrNothing A x,
    E.absorb_picks_allOrNothing A x y⟩

end Code
end ExpandConvolute
