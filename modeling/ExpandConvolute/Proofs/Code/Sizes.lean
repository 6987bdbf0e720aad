import ExpandConvolute.Proofs.Code.Acceptance

/-!
# ExpandConvolute.Proofs.Code.Sizes

A code from its sizes, weight and width alone. A code size of zero asks for twice the message size.
That number is computed before anything is checked, and there are message sizes whose double is no
size.

* `ofSizes_eq`: if the code size that is asked for is a size, the request is a record of parameters
  like any other; if not, it is at fault.
* `configured_exactly`: which requests make a code, which are refused and why, and which are at fault.
* `doubled_size_at_fault`: not every request is answered by a code or a refusal.
-/

namespace ExpandConvolute

namespace Parameters

/-- The code size that a request stands for, as an exact number. -/
def intendedSize (messageSize codeSize : UInt64) : Nat :=
  if codeSize = 0 then 2 * messageSize.toNat else codeSize.toNat

/-- The parameters that a request stands for. -/
def requested (messageSize codeSize weight width : UInt64) (systematic : Bool) : Parameters where
  messageSize
  codeSize := .ofNat (intendedSize messageSize codeSize)
  weight
  width
  systematic
  regular := true
  secondSweep := true
  seed := defaultSeed

theorem intendedSize_overflows_iff (messageSize codeSize : UInt64) :
    sizeLimit ≤ intendedSize messageSize codeSize ↔
      codeSize = 0 ∧ sizeLimit ≤ 2 * messageSize.toNat := by
  unfold intendedSize
  by_cases hc : codeSize = 0
  · rw [if_pos hc]
    exact (and_iff_right hc).symm
  · rw [if_neg hc]
    have hlt : codeSize.toNat < sizeLimit := codeSize.toNat_lt
    exact ⟨fun h => absurd hlt (Nat.not_lt_of_le h), fun h => absurd h.1 hc⟩

theorem ofSizes_eq (messageSize codeSize : UInt64) :
    ofSizes messageSize codeSize =
      if intendedSize messageSize codeSize < sizeLimit then
        .ok (requested messageSize codeSize defaultWeight defaultWidth true)
      else
        .error .overflow := by
  unfold ofSizes requested intendedSize
  by_cases hc : codeSize = 0
  · rw [if_pos hc, if_pos hc, mulSize]
    by_cases hdouble : 2 * messageSize.toNat < sizeLimit
    · rw [if_pos hdouble, if_pos hdouble]
      rfl
    · rw [if_neg hdouble, if_neg hdouble]
      rfl
  · have hlt : codeSize.toNat < sizeLimit := codeSize.toNat_lt
    rw [if_neg hc, if_neg hc, if_pos hlt, UInt64.ofNat_toNat]
    rfl

end Parameters

namespace Code

open Parameters (intendedSize requested intendedSize_overflows_iff)

section Requests

variable (messageSize codeSize weight width : UInt64) (systematic : Bool)

theorem ofSizes_eq :
    ofSizes messageSize codeSize weight width systematic =
      if intendedSize messageSize codeSize < sizeLimit then
        (ofParameters (requested messageSize codeSize weight width systematic)).mapError .refused
      else
        .error (.fault .overflow) := by
  rw [ofSizes, Parameters.ofSizes_eq]
  by_cases hn : intendedSize messageSize codeSize < sizeLimit
  · rw [if_pos hn, if_pos hn]
    dsimp only [requested]
    cases ofParameters _ with
    | error r => rfl
    | ok code => rfl
  · rw [if_neg hn, if_neg hn]

variable {messageSize codeSize weight width systematic}

theorem ofSizes_eq_ok_iff {code : Code} :
    ofSizes messageSize codeSize weight width systematic = .ok code ↔
      intendedSize messageSize codeSize < sizeLimit ∧
        ofParameters (requested messageSize codeSize weight width systematic) = .ok code := by
  rw [ofSizes_eq]
  by_cases hn : intendedSize messageSize codeSize < sizeLimit
  · rw [if_pos hn, and_iff_right hn]
    cases ofParameters (requested messageSize codeSize weight width systematic) with
    | error r => exact ⟨nofun, nofun⟩
    | ok code' =>
      show Except.ok code' = Except.ok code ↔ _
      simp
  · simp [hn]

theorem ofSizes_eq_refused_iff {r : Refusal} :
    ofSizes messageSize codeSize weight width systematic = .error (.refused r) ↔
      intendedSize messageSize codeSize < sizeLimit ∧
        ofParameters (requested messageSize codeSize weight width systematic) = .error r := by
  rw [ofSizes_eq]
  by_cases hn : intendedSize messageSize codeSize < sizeLimit
  · rw [if_pos hn, and_iff_right hn]
    cases ofParameters (requested messageSize codeSize weight width systematic) with
    | error r' =>
      show Except.error (Failure.refused r') = Except.error (Failure.refused r) ↔ _
      simp
    | ok code => exact ⟨nofun, nofun⟩
  · simp [hn]

theorem ofSizes_eq_fault_iff {f : Fault} :
    ofSizes messageSize codeSize weight width systematic = .error (.fault f) ↔
      f = .overflow ∧ sizeLimit ≤ intendedSize messageSize codeSize := by
  rw [ofSizes_eq]
  by_cases hn : intendedSize messageSize codeSize < sizeLimit
  · have hle : ¬ sizeLimit ≤ intendedSize messageSize codeSize := Nat.not_le_of_lt hn
    rw [if_pos hn]
    refine ⟨fun h => ?_, fun h => absurd h.2 hle⟩
    cases hcode : ofParameters (requested messageSize codeSize weight width systematic) with
    | error r => rw [hcode] at h; cases h
    | ok code => rw [hcode] at h; cases h
  · simp [hn, Nat.le_of_not_lt hn, eq_comm]

theorem requested_reports (hn : intendedSize messageSize codeSize < sizeLimit) :
    let k := messageSize.toNat
    let n := intendedSize messageSize codeSize
    let start := if systematic then k else 0
    let columns := max 1 ((weight.toNat + 1) / 2)
    Reports (ofParameters (requested messageSize codeSize weight width systematic)) [
      ⟨1 ≤ k, .emptyMessage⟩,
      ⟨k ≤ n ∧ (systematic = true → k < n), .codeTooShort k n⟩,
      ⟨width.toNat ≤ 64, .convolutionTooWide width.toNat⟩,
      ⟨weight.toNat = 0 ∨ columns ≤ n - start, .domainTooSmall (n - start) columns⟩] := by
  have hsize : (requested messageSize codeSize weight width systematic).codeSize.toNat =
      intendedSize messageSize codeSize := UInt64.toNat_ofNat_of_lt' hn
  have hreports :=
    ofParameters_reports_sizes (requested messageSize codeSize weight width systematic)
  rwa [hsize] at hreports

end Requests

/-- A request makes a code exactly if the code size that it stands for is a size and its numbers fit
together. It is at fault exactly if the message size is to be doubled and its double is no size; in
all other cases the first condition that does not hold is reported. -/
theorem configured_exactly (messageSize codeSize weight width : UInt64) (systematic : Bool) :
    let k := messageSize.toNat
    let n := intendedSize messageSize codeSize
    let start := if systematic then k else 0
    let columns := max 1 ((weight.toNat + 1) / 2)
    let configured := ofSizes messageSize codeSize weight width systematic
    ((∃ code, configured = .ok code) ↔
      n < sizeLimit ∧ 1 ≤ k ∧ (k ≤ n ∧ (systematic = true → k < n)) ∧ width.toNat ≤ 64 ∧
        (weight.toNat = 0 ∨ columns ≤ n - start)) ∧
    (∀ f, configured = .error (.fault f) ↔
      f = .overflow ∧ codeSize = 0 ∧ sizeLimit ≤ 2 * k) ∧
    (∀ r, configured = .error (.refused r) ↔ n < sizeLimit ∧
      FirstViolated [
        ⟨1 ≤ k, .emptyMessage⟩,
        ⟨k ≤ n ∧ (systematic = true → k < n), .codeTooShort k n⟩,
        ⟨width.toNat ≤ 64, .convolutionTooWide width.toNat⟩,
        ⟨weight.toNat = 0 ∨ columns ≤ n - start, .domainTooSmall (n - start) columns⟩] r) ∧
    ∀ code, configured = .ok code →
      code.parameters = requested messageSize codeSize weight width systematic := by
  intro k n start columns configured
  refine ⟨?_, ?_, ?_, ?_⟩
  · simp only [configured, ofSizes_eq_ok_iff, exists_and_left]
    apply and_congr_right
    intro hn
    rw [(requested_reports hn).ok_iff]
    simp only [List.forall_mem_cons, List.not_mem_nil, false_implies, implies_true, and_true]
    exact Iff.rfl
  · intro f
    rw [ofSizes_eq_fault_iff, intendedSize_overflows_iff]
  · intro r
    rw [ofSizes_eq_refused_iff]
    apply and_congr_right
    intro hn
    exact requested_reports hn r
  · intro code hcode
    exact parameters_of_accepted (ofSizes_eq_ok_iff.mp hcode).2

/-- The largest message size that can be doubled makes a code, the next one is at fault, and what is
refused is refused for its first violated condition. -/
theorem configured_exactly_at_half_limit :
    (∃ code, ofSizes 0x7fffffffffffffff 0 7 24 true = .ok code ∧
      code.parameters.codeSize = 0xfffffffffffffffe) ∧
    ofSizes 0x8000000000000000 0 7 24 true = .error (.fault .overflow) ∧
    ofSizes 0x8000000000000000 1 7 65 true =
      .error (.refused (.codeTooShort 0x8000000000000000 1)) := by
  obtain ⟨haccepted, -, -, hparameters⟩ := configured_exactly 0x7fffffffffffffff 0 7 24 true
  obtain ⟨-, hfault, -⟩ := configured_exactly 0x8000000000000000 0 7 24 true
  obtain ⟨-, -, hrefused, -⟩ := configured_exactly 0x8000000000000000 1 7 65 true
  obtain ⟨code, hcode⟩ := haccepted.mpr (by decide)
  refine ⟨⟨code, hcode, ?_⟩, (hfault _).mpr (by decide), (hrefused _).mpr ⟨by decide, ?_⟩⟩
  · rw [hparameters code hcode]
    decide
  · apply FirstViolated.later (by decide)
    exact FirstViolated.here (by decide)

/-- The double of `2^63` is no size, and no condition has been checked before it is computed. -/
theorem doubled_size_at_fault :
    ¬ ∀ (messageSize codeSize weight width : UInt64) (systematic : Bool) (f : Fault),
      ofSizes messageSize codeSize weight width systematic ≠ .error (.fault f) := by
  intro hnever
  exact hnever 0x8000000000000000 0 7 24 true .overflow rfl

end Code
end ExpandConvolute
