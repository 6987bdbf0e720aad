import ExpandConvolute.Proofs.Expansion.DrawOrder
import Mathlib.Order.Interval.Set.LinearOrder

/-!
# ExpandConvolute.Proofs.Expansion.Strata

Where the sources of a row lie. A stratum is an interval of columns, and the strata of an expansion
are neighbouring intervals of one width. What a sampler draws is below its modulus (`Draws.lt`), so
an entry that is drawn from a stratum stays in it (`entry_mem_stratum`) and every entry names a
column (`entry_lt`), for all seeds and however many pools are used up.

`rows_stratified` says this of every shape that is accepted, tells which ones are refused, and adds
that neither listing the rows nor expanding is at fault.
-/

namespace ExpandConvolute

open Edit (Yields)

theorem IndexSampler.Draws.lt {seed : Seed} {modulus : Nat} {f : Nat → Nat}
    (h : IndexSampler.Draws seed modulus f) (d : Nat) : f d < modulus := by
  obtain ⟨s, hs, hdraws⟩ := h
  rw [← hdraws d, s.next_afterDraws, ← modulus_ofSeed hs]
  exact s.index_lt d

namespace Expansion

open IndexSampler (Draws)

/-- The columns of stratum `s`, if strata are `width` columns wide. -/
def stratum (width s : Nat) : Set Nat := Set.Ico (width * s) (width * (s + 1))

theorem mem_stratum {width s source : Nat} :
    source ∈ stratum width s ↔ width * s ≤ source ∧ source < width * (s + 1) := Iff.rfl

theorem stratum_nonempty {width : Nat} (h : 0 < width) (s : Nat) : (stratum width s).Nonempty :=
  Set.nonempty_Ico.mpr (Nat.mul_lt_mul_of_pos_left (Nat.lt_succ_self s) h)

theorem stratum_disjoint (width : Nat) {s t : Nat} (h : s ≠ t) :
    stratum width s ∩ stratum width t = ∅ := by
  rw [stratum, stratum, Set.Ico_inter_Ico, Set.Ico_eq_empty_iff]
  rcases Nat.lt_or_gt_of_ne h with hlt | hgt
  · have hends : width * (s + 1) ≤ width * t := Nat.mul_le_mul_left width hlt
    omega
  · have hends : width * (t + 1) ≤ width * s := Nat.mul_le_mul_left width hgt
    omega

theorem mem_stratum_iff {width s source : Nat} (h : source ∈ stratum width s) (t : Nat) :
    source ∈ stratum width t ↔ t = s := by
  constructor
  · intro ht
    by_contra hne
    have hboth : source ∈ stratum width t ∩ stratum width s := ⟨ht, h⟩
    rw [stratum_disjoint width hne] at hboth
    exact hboth
  · rintro rfl
    exact h

/-- The first `count` strata are not empty, they are made of columns, and they are disjoint. -/
structure SplitInStrata (sourceSize count width : Nat) : Prop where
  nonempty : ∀ s, s < count → (stratum width s).Nonempty
  inside : ∀ s, s < count → ∀ source ∈ stratum width s, source < sourceSize
  disjoint : ∀ s t, s < count → t < count → s ≠ t → stratum width s ∩ stratum width t = ∅

/-- A row of `weight` columns, the first `count` of which are taken from as many strata, one from
each. -/
structure Stratified (sourceSize weight count width : Nat) (row : Array Nat) : Prop where
  size : row.size = weight
  inside : ∀ source ∈ row, source < sourceSize
  own : ∀ s, s < count →
    ∃ source, row[s]? = some source ∧ ∀ t, source ∈ stratum width t ↔ t = s
  distinct : ∀ s t, s < count → t < count → s ≠ t → row[s]? ≠ row[t]?

section Entries

variable (E : Expansion)

theorem stratum_inside {s : Nat} (hs : s < E.strata) :
    ∀ source ∈ stratum E.stratumWidth s, source < E.sourceSize := by
  intro source hsource
  have hfits := E.stratum_fits hs
  rw [mem_stratum, Nat.mul_succ] at hsource
  omega

theorem split_in_strata : SplitInStrata E.sourceSize E.strata E.stratumWidth where
  nonempty s hs := stratum_nonempty (E.stratumWidth_pos (Nat.zero_lt_of_lt hs)) s
  inside _ hs := E.stratum_inside hs
  disjoint _ _ _ _ h := stratum_disjoint _ h

variable {R F : Nat → Nat}
  (hR : 0 < E.strata → Draws (E.seed ^^^ stratifiedTweak) E.stratumWidth R)
include hR

theorem entry_mem_stratum (i : Nat) {s : Nat} (hs : s < E.strata) :
    E.entry R F i s ∈ stratum E.stratumWidth s := by
  have hdraw := (hR (Nat.zero_lt_of_lt hs)).lt (drawNumber E.messageSize E.strata i s)
  rw [entry, if_pos hs, mem_stratum, Nat.mul_succ]
  omega

theorem entry_lt (hF : Draws E.seed (max E.sourceSize 1) F) (i : Nat) {j : Nat}
    (hj : j < E.weight) : E.entry R F i j < E.sourceSize := by
  by_cases hs : j < E.strata
  · exact E.stratum_inside hs _ (E.entry_mem_stratum hR i hs)
  · have hcols : max E.strata 1 ≤ E.sourceSize := E.enoughColumns (Nat.zero_lt_of_lt hj)
    -- there is a column, so the modulus of the second sampler is their number
    have hdraw := hF.lt (drawNumber E.messageSize (E.weight - E.strata) i (j - E.strata))
    rw [entry, if_neg hs]
    omega

theorem row_stratified (hF : Draws E.seed (max E.sourceSize 1) F) (i : Nat) :
    Stratified E.sourceSize E.weight E.strata E.stratumWidth
      (Array.ofFn fun j : Fin E.weight => E.entry R F i j.val) := by
  have hown : ∀ s, s < E.strata → ∃ source,
      (Array.ofFn fun j : Fin E.weight => E.entry R F i j.val)[s]? = some source ∧
        ∀ t, source ∈ stratum E.stratumWidth t ↔ t = s := by
    intro s hs
    refine ⟨E.entry R F i s, ?_, mem_stratum_iff (E.entry_mem_stratum hR i hs)⟩
    rw [Array.getElem?_ofFn, dif_pos (Nat.lt_of_lt_of_le hs E.strata_le_weight)]
  refine ⟨Array.size_ofFn, ?_, hown, ?_⟩
  · intro source hsource
    obtain ⟨j, rfl⟩ := Array.mem_ofFn.mp hsource
    exact E.entry_lt hR hF i j.isLt
  · -- a source in the strata of both entries would make them one
    intro s t hs ht hne heq
    obtain ⟨source, hsource, hstratum⟩ := hown s hs
    obtain ⟨source', hsource', hstratum'⟩ := hown t ht
    rw [hsource, hsource'] at heq
    cases heq
    exact hne ((hstratum' s).mp ((hstratum s).mpr rfl))

end Entries

theorem stratumWidth_eq (E : Expansion) : E.stratumWidth = E.sourceSize / E.strata := by
  rw [stratumWidth]
  split
  · rename_i h
    rw [h, Nat.div_zero]
  · rfl

theorem rows_stratified_of_accepted (E : Expansion) :
    ∃ rows, E.rows = .ok rows ∧ rows.size = E.messageSize ∧
      ∀ row ∈ rows, Stratified E.sourceSize E.weight E.strata (E.sourceSize / E.strata) row := by
  obtain ⟨R, F, hR, hF⟩ := E.exists_draws
  refine ⟨_, E.rows_eq_entries hR hF, Array.size_ofFn, ?_⟩
  intro row hrow
  obtain ⟨i, rfl⟩ := Array.mem_ofFn.mp hrow
  rw [← E.stratumWidth_eq]
  exact E.row_stratified hR hF i

/-- A request is refused exactly if it has something to draw and fewer columns than strata, or none
at all. In every other case each row takes its stratified sources from strata of its own and all
others from the columns, and the expansion is never at fault. -/
theorem rows_stratified (messageSize sourceSize weight : UInt64) (regular : Bool) (seed : Seed) :
    let N := sourceSize.toNat
    let count := if regular then (weight.toNat + 1) / 2 else 0
    (0 < weight.toNat ∧ N < max 1 count →
      ofShape messageSize sourceSize weight regular seed =
        .error (.domainTooSmall N (max 1 count))) ∧
    (¬ (0 < weight.toNat ∧ N < max 1 count) →
      ∃ E, ofShape messageSize sourceSize weight regular seed = .ok E ∧
        SplitInStrata N count (N / count) ∧
        (∃ rows, E.rows = .ok rows ∧ rows.size = messageSize.toNat ∧
          ∀ row ∈ rows, Stratified N weight.toNat count (N / count) row) ∧
        ∀ {σ : Type} (A : Alphabet σ) (mode : Mode) (input y : Buffer σ),
          input.size = N → y.size = messageSize.toNat →
            ∃ z, Yields (E.expand A mode input) y () z [] ∧ z.size = y.size) := by
  intro N count
  have hcount : strataOf weight.toNat regular = count := rfl
  constructor
  · rintro ⟨hweight, hfew⟩
    have hno : ¬ EnoughColumns N weight.toNat regular := by
      intro henough
      have := henough hweight
      omega
    rw [ofShape, dif_neg hno, tooFewColumns, hcount, Nat.max_comm]
  · intro henough
    have hcols : EnoughColumns N weight.toNat regular := by
      intro hweight
      omega
    let E : Expansion := ⟨messageSize.toNat, N, weight.toNat, regular, seed, sourceSize.toNat_lt,
      hcols⟩
    have hsplit : SplitInStrata N count (N / count) := E.stratumWidth_eq ▸ E.split_in_strata
    refine ⟨E, dif_pos hcols, hsplit, E.rows_stratified_of_accepted, ?_⟩
    intro σ A mode input y hinput hy
    refine ⟨_, E.expand_yields A mode hinput hy, ?_⟩
    rw [size_sums, Mode.size_start]

end Expansion
end ExpandConvolute
