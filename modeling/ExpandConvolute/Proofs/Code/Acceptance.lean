import ExpandConvolute.Proofs.Code.Accepted
import ExpandConvolute.Proofs.Session.AllOrNothing

/-!
# ExpandConvolute.Proofs.Code.Acceptance

Which parameters make a code, and how the parts of the code fit together. A code is made in stages
(`assemble`): the sizes are checked, then the convolution is made and then the expansion, and each
of the two checks its own shape. `ofParameters` comes to the same (`ofParameters_eq_assemble`), so
what it reports is what the stages report, put together by `Reports.bind`.

The width is checked twice. The second check cannot be violated any more, so it adds nothing to the
list of preconditions.
-/

namespace ExpandConvolute

namespace Parameters

theorem check_reports (P : Parameters) :
    Reports P.check [
      ⟨P.HasMessage, .emptyMessage⟩,
      ⟨P.HasParity, .codeTooShort P.messageSize.toNat P.codeSize.toNat⟩,
      ⟨P.Narrow, .convolutionTooWide P.width.toNat⟩] :=
  .guard fun _ => .guard fun _ => .guard fun _ => .ok ()

theorem toNat_ofNat_paritySize (P : Parameters) :
    (UInt64.ofNat P.paritySize).toNat = P.paritySize := UInt64.toNat_ofNat_of_lt' P.paritySize_lt

end Parameters

theorem Convolution.ofWidth_eq_ok {width : Nat} (secondSweep : Bool) (h : width ≤ maxWidth) :
    ofWidth width secondSweep = .ok ⟨width, secondSweep, h⟩ := dif_pos h

theorem Expansion.ofShape_reports (messageSize sourceSize weight : UInt64) (regular : Bool)
    (seed : Seed) :
    Reports (ofShape messageSize sourceSize weight regular seed) [
      ⟨EnoughColumns sourceSize.toNat weight.toNat regular,
        tooFewColumns sourceSize.toNat weight.toNat regular⟩] := .guarded _

namespace Code

/-- The parts of a code, made one after the other. -/
def assemble (P : Parameters) : Except Refusal (Parameters × Convolution × Expansion) := do
  P.check
  let convolution ← Convolution.ofWidth P.width.toNat P.secondSweep
  let expansion ← Expansion.ofShape P.messageSize (.ofNat P.paritySize) P.weight P.regular P.seed
  return (P, convolution, expansion)

theorem ofShape_eq_expansion (code : Code) :
    Expansion.ofShape code.parameters.messageSize (.ofNat code.parameters.paritySize)
      code.parameters.weight code.parameters.regular code.parameters.seed = .ok code.expansion := by
  have hsize := code.parameters.toNat_ofNat_paritySize
  have hcolumns : EnoughColumns (UInt64.ofNat code.parameters.paritySize).toNat
      code.parameters.weight.toNat code.parameters.regular := by
    rw [hsize]
    exact code.hasColumns
  rw [Expansion.ofShape, dif_pos hcolumns]
  simp only [expansion, hsize]

theorem assemble_of_code (code : Code) :
    assemble code.parameters = .ok (code.parameters, code.convolution, code.expansion) := by
  have hconvolution := Convolution.ofWidth_eq_ok code.parameters.secondSweep code.convolution.width_le
  rw [assemble, code.valid, code.ofShape_eq_expansion]
  show (Convolution.ofWidth code.convolution.width _ >>= _) = _
  rw [hconvolution]
  rfl

/-- The checks of all stages, in the order in which they are made. -/
theorem assemble_reports (P : Parameters) :
    Reports (assemble P) [
      ⟨P.HasMessage, .emptyMessage⟩,
      ⟨P.HasParity, .codeTooShort P.messageSize.toNat P.codeSize.toNat⟩,
      ⟨P.Narrow, .convolutionTooWide P.width.toNat⟩,
      ⟨P.HasColumns, tooFewColumns P.paritySize P.weight.toNat P.regular⟩] := by
  have hshape := Expansion.ofShape_reports P.messageSize (.ofNat P.paritySize) P.weight P.regular
    P.seed
  rw [P.toNat_ofNat_paritySize] at hshape
  show Reports (P.check >>= _) ([_, _, _] ++ [_])
  refine P.check_reports.bind fun _ hall => ?_
  have hnarrow : P.Narrow := hall ⟨_, .convolutionTooWide P.width.toNat⟩ (by simp)
  rw [Convolution.ofWidth_eq_ok _ hnarrow]
  have hparts := hshape.bind fun E _ => Reports.ok (P, Convolution.mk _ P.secondSweep hnarrow, E)
  exact hparts

theorem ofParameters_eq_assemble (P : Parameters) :
    (ofParameters P).map (fun code => (code.parameters, code.convolution, code.expansion)) =
      assemble P := by
  cases h : ofParameters P with
  | ok code =>
    obtain rfl := parameters_of_accepted h
    exact code.assemble_of_code.symm
  | error e =>
    symm
    show assemble P = .error e
    rw [assemble_reports P e]
    unfold ofParameters at h
    split at h
    · rename_i r hcheck
      cases h
      exact firstViolated_append.mpr (.inl ((P.check_reports _).mp hcheck))
    · rename_i hcheck
      split at h
      · cases h
      · rename_i hcolumns
        cases h
        have hall := P.check_reports.ok_iff.mp ⟨_, hcheck⟩
        exact firstViolated_append.mpr (.inr ⟨hall, .here hcolumns⟩)

theorem ofParameters_reports (P : Parameters) :
    Reports (ofParameters P) [
      ⟨P.HasMessage, .emptyMessage⟩,
      ⟨P.HasParity, .codeTooShort P.messageSize.toNat P.codeSize.toNat⟩,
      ⟨P.Narrow, .convolutionTooWide P.width.toNat⟩,
      ⟨P.HasColumns, tooFewColumns P.paritySize P.weight.toNat P.regular⟩] := by
  have h := assemble_reports P
  rw [← ofParameters_eq_assemble] at h
  exact h.of_map

/-- The same conditions as relations between numbers, if the parity begins at `start` and `count`
sources of a row are drawn from strata. -/
theorem ofParameters_reports_sizes (P : Parameters) :
    let k := P.messageSize.toNat
    let n := P.codeSize.toNat
    let start := if P.systematic then k else 0
    let count := if P.regular then (P.weight.toNat + 1) / 2 else 0
    Reports (ofParameters P) [
      ⟨1 ≤ k, .emptyMessage⟩,
      ⟨k ≤ n ∧ (P.systematic = true → k < n), .codeTooShort k n⟩,
      ⟨P.width.toNat ≤ 64, .convolutionTooWide P.width.toNat⟩,
      ⟨P.weight.toNat = 0 ∨ max 1 count ≤ n - start,
        .domainTooSmall (n - start) (max 1 count)⟩] := by
  intro k n start count
  have hparity : P.HasParity = (k ≤ n ∧ (P.systematic = true → k < n)) := by
    apply propext
    apply and_congr_right
    intro hle
    exact forall_congr' fun _ => (Nat.lt_iff_le_and_ne.trans (and_iff_right hle)).symm
  have hcolumns : P.HasColumns = (P.weight.toNat = 0 ∨ max 1 count ≤ n - start) := by
    apply propext
    show (0 < P.weight.toNat → max count 1 ≤ n - start) ↔ _
    omega
  have hrefusal : tooFewColumns P.paritySize P.weight.toNat P.regular =
      .domainTooSmall (n - start) (max 1 count) := by
    rw [Nat.max_comm]
    rfl
  have hreports := ofParameters_reports P
  rwa [hparity, hcolumns, hrefusal] at hreports

/-- How the parts of a code fit together, if the parity begins at position `start` and `count`
sources of a row are drawn from strata. -/
structure FitsTogether (P : Parameters) (start count : Nat) (code : Code) : Prop where
  parameters : code.parameters = P
  width : code.convolution.width = P.width.toNat
  secondSweep : code.convolution.secondSweep = P.secondSweep
  rows : code.expansion.messageSize = P.messageSize.toNat
  columns : code.expansion.sourceSize = code.paritySize
  parityStart : code.parityStart = start
  paritySize : code.paritySize = P.codeSize.toNat - start
  parity_nonempty : 1 ≤ code.paritySize
  parity_end : code.parityStart + code.paritySize = P.codeSize.toNat
  strata : code.expansion.strata = count
  strata_inside : count * code.expansion.stratumWidth ≤ code.paritySize
  stratum_nonempty : 0 < count → 1 ≤ code.expansion.stratumWidth

theorem paritySize_pos (code : Code) : 0 < code.paritySize := by
  have hmessage : 0 < code.parameters.messageSize.toNat := code.messageSize_pos
  have hle : code.parameters.messageSize.toNat ≤ code.parameters.codeSize.toNat :=
    code.messageSize_le
  show 0 < code.parameters.codeSize.toNat - code.parameters.parityStart
  rw [Parameters.parityStart]
  cases hs : code.parameters.systematic with
  | true =>
    have hne := (code.parameters.check_eq_ok_iff.mp code.valid).2.1.2 hs
    rw [if_pos rfl]
    omega
  | false =>
    rw [if_neg Bool.false_ne_true]
    omega

theorem fitsTogether (code : Code) :
    FitsTogether code.parameters code.parityStart code.expansion.strata code where
  parameters := rfl
  width := rfl
  secondSweep := rfl
  rows := rfl
  columns := rfl
  parityStart := rfl
  paritySize := rfl
  parity_nonempty := code.paritySize_pos
  parity_end := code.parityStart_add_paritySize
  strata := rfl
  strata_inside := by
    rw [Nat.mul_comm]
    exact code.expansion.stratumWidth_mul_le
  stratum_nonempty := code.expansion.stratumWidth_pos

/-- Parameters make a code exactly if they meet four conditions. Otherwise the first one that they
do not meet is reported. Making the parts one after the other comes to the same, and the parts of a
code fit together. -/
theorem accepted_exactly (P : Parameters) :
    let k := P.messageSize.toNat
    let n := P.codeSize.toNat
    let start := if P.systematic then k else 0
    let count := if P.regular then (P.weight.toNat + 1) / 2 else 0
    ((∃ code, ofParameters P = .ok code) ↔
      1 ≤ k ∧ (k ≤ n ∧ (P.systematic = true → k < n)) ∧ P.width.toNat ≤ 64 ∧
        (P.weight.toNat = 0 ∨ max 1 count ≤ n - start)) ∧
    (∀ e, ofParameters P = .error e ↔
      FirstViolated [
        ⟨1 ≤ k, .emptyMessage⟩,
        ⟨k ≤ n ∧ (P.systematic = true → k < n), .codeTooShort k n⟩,
        ⟨P.width.toNat ≤ 64, .convolutionTooWide P.width.toNat⟩,
        ⟨P.weight.toNat = 0 ∨ max 1 count ≤ n - start,
          .domainTooSmall (n - start) (max 1 count)⟩] e) ∧
    (ofParameters P).map (fun code => (code.parameters, code.convolution, code.expansion)) =
      assemble P ∧
    ∀ code, ofParameters P = .ok code → FitsTogether P start count code := by
  intro k n start count
  have hreports := ofParameters_reports_sizes P
  refine ⟨?_, hreports, ofParameters_eq_assemble P, ?_⟩
  · rw [hreports.ok_iff]
    simp only [List.forall_mem_cons, List.not_mem_nil, false_implies, implies_true, and_true]
    exact Iff.rfl
  · intro code hcode
    obtain rfl := parameters_of_accepted hcode
    exact code.fitsTogether

theorem accepted_exactly_at_two_of_five :
    let crowded : Parameters := ⟨1, 2, 4, 65, true, true, true, Parameters.defaultSeed⟩
    ofParameters twoOfFive.parameters = .ok twoOfFive ∧
      FitsTogether twoOfFive.parameters 2 1 twoOfFive ∧
      ¬ crowded.Narrow ∧ ¬ crowded.HasColumns ∧
      ofParameters crowded = .error (.convolutionTooWide 65) := by
  intro crowded
  obtain ⟨-, -, -, hfits⟩ := accepted_exactly twoOfFive.parameters
  obtain ⟨-, hrefused, -⟩ := accepted_exactly crowded
  have hcode := twoOfFive.ofParameters_parameters
  refine ⟨hcode, hfits twoOfFive hcode, by decide, by decide, (hrefused _).mpr ?_⟩
  apply FirstViolated.later (show 1 ≤ 1 by decide)
  apply FirstViolated.later (show 1 ≤ 2 ∧ (true = true → 1 < 2) by decide)
  exact FirstViolated.here (show ¬ 65 ≤ 64 by decide)

end Code
end ExpandConvolute
