import ExpandConvolute.Expansion.Basic
import ExpandConvolute.Proofs.Expansion.Sampler

/-!
# ExpandConvolute.Proofs.Expansion.Picks

The sources of an expansion in closed form. The nested loops that draw them cannot be at fault:
an index within a stratum, moved to where the stratum begins, stays below the number of columns.

* `lanePicks`, `blockPicks`, `groupPicks`: what one stratum, a run of strata and a group of rows
  draw, as lists in draw order.
* `pickLanes_eq`, `pickStrata_eq`, `pickGroup_eq`, `pickGroups_eq`: the loops draw these lists and
  leave their samplers moved on by as many draws as the lists are long.
* `picks_eq`: the picks of an expansion are the list `matrixPicks`; `picks_ok`: they lie inside its
  matrix.
-/

namespace ExpandConvolute

theorem addSize_ok {a b : Nat} (h : a + b < sizeLimit) : addSize a b = .ok (a + b) := if_pos h

theorem mulSize_ok {a b : Nat} (h : a * b < sizeLimit) : mulSize a b = .ok (a * b) := if_pos h

namespace Expansion

/-- One source for each of `group` rows from `row` on. -/
def lanePicks (index : Nat → Nat) (offset group row : Nat) : List Pick :=
  (List.range group).map fun p => ⟨row + p, index p + offset⟩

/-- Sources from `count` blocks of columns of the given width, from block `first` on, for a group
of rows. Drawing from all columns is drawing from blocks of width zero. -/
def blockPicks (index : Nat → Nat) (width group row count first : Nat) : List Pick :=
  (List.range count).flatMap fun j =>
    lanePicks (fun p => index (group * j + p)) (width * (first + j)) group row

theorem lanePicks_succ (index : Nat → Nat) (offset group row : Nat) :
    lanePicks index offset (group + 1) row =
      ⟨row, index 0 + offset⟩ :: lanePicks (fun p => index (p + 1)) offset group (row + 1) := by
  simp [lanePicks, List.range_succ_eq_map, Function.comp_def, Nat.add_assoc, Nat.add_comm 1]

theorem blockPicks_succ (index : Nat → Nat) (width group row count first : Nat) :
    blockPicks index width group row (count + 1) first =
      lanePicks index (width * first) group row ++
        blockPicks (fun d => index (group + d)) width group row count (first + 1) := by
  simp [blockPicks, List.range_succ_eq_map, List.flatMap_map, Nat.mul_succ, Nat.add_comm,
    Nat.add_left_comm]

theorem pickLanes_eq (offset group : Nat) :
    ∀ (row : Nat) (s : IndexSampler) (picks : Array Pick), s.modulus + offset ≤ sizeLimit →
      pickLanes offset group row s picks =
        .ok (afterDraws IndexSampler.next group s,
          picks ++ (lanePicks s.index offset group row).toArray) := by
  induction group with
  | zero =>
    intro row s picks _
    simp [pickLanes, afterDraws, lanePicks]
  | succ group ih =>
    intro row s picks hs
    have hlt := s.index_lt 0
    have hrest : s.next.2.index = fun p => s.index (p + 1) := funext s.index_next
    show (addSize s.next.1 offset >>= _) = _
    rw [s.next_fst, addSize_ok (by omega)]
    show pickLanes offset group (row + 1) s.next.2 (picks.push ⟨row, s.index 0 + offset⟩) = _
    rw [ih _ _ _ (by rw [s.modulus_next]; exact hs), hrest, lanePicks_succ]
    simp [afterDraws]

theorem pickStrata_eq (width group row count : Nat) :
    ∀ (first : Nat) (s : IndexSampler) (picks : Array Pick),
      (∀ t, t < first + count → s.modulus + width * t ≤ sizeLimit) →
      pickStrata width group row count first s picks =
        .ok (afterDraws IndexSampler.next (group * count) s,
          picks ++ (blockPicks s.index width group row count first).toArray) := by
  induction count with
  | zero =>
    intro first s picks _
    simp [pickStrata, afterDraws, blockPicks]
  | succ count ih =>
    intro first s picks hs
    have hfirst := hs first (by omega)
    have hpos := s.modulus_pos
    have hrest : (afterDraws IndexSampler.next group s).index = fun d => s.index (group + d) :=
      funext (s.index_afterDraws group)
    have hafter : ∀ t, t < first + 1 + count →
        (afterDraws IndexSampler.next group s).modulus + width * t ≤ sizeLimit := by
      intro t ht
      rw [s.modulus_afterDraws group]
      exact hs t (by omega)
    rw [pickStrata, mulSize_ok (by omega)]
    show (pickLanes (width * first) group row s picks >>= _) = _
    rw [pickLanes_eq _ _ _ _ _ hfirst]
    show pickStrata width group row count (first + 1) (afterDraws IndexSampler.next group s)
      (picks ++ (lanePicks s.index (width * first) group row).toArray) = _
    rw [ih _ _ _ hafter, hrest, blockPicks_succ, ← afterDraws_add, Nat.mul_succ, Nat.add_comm group]
    simp

theorem pickWhole_eq_pickStrata (group row count : Nat) :
    ∀ (first : Nat) (s : IndexSampler) (picks : Array Pick),
      pickWhole group row count s picks = pickStrata 0 group row count first s picks := by
  induction count with
  | zero =>
    intro first s picks
    rfl
  | succ count ih =>
    intro first s picks
    rw [pickWhole, pickStrata, mulSize_ok (by simp [sizeLimit]), Nat.zero_mul]
    show _ = (pickLanes 0 group row s picks >>= _)
    congr 1
    funext r
    exact ih (first + 1) r.1 r.2

/-! ## Groups of rows -/

/-- The samplers after `rows` rows have been drawn. -/
def Samplers.after (E : Expansion) (rows : Nat) (S : Samplers) : Samplers where
  stratum := S.stratum.map (afterDraws IndexSampler.next (rows * E.strata))
  whole := afterDraws IndexSampler.next (rows * (E.weight - E.strata)) S.whole

/-- Samplers that draw within a stratum and from all columns. -/
structure Samplers.Fit (E : Expansion) (S : Samplers) : Prop where
  stratum : ∀ s, S.stratum = some s → s.modulus = E.stratumWidth
  whole : S.whole.modulus = max E.sourceSize 1

theorem Samplers.after_add (E : Expansion) (n k : Nat) (S : Samplers) :
    S.after E (n + k) = (S.after E n).after E k := by
  simp only [after, Nat.add_mul, afterDraws_add, Option.map_map]
  congr 2
  funext s
  exact afterDraws_add ..

theorem Samplers.after_zero (E : Expansion) (S : Samplers) : S.after E 0 = S := by
  cases S with
  | mk stratum whole =>
    cases stratum <;> simp [after, afterDraws]

theorem Samplers.Fit.after {E : Expansion} {S : Samplers} (h : S.Fit E) (rows : Nat) :
    (S.after E rows).Fit E where
  stratum s hs := by
    obtain ⟨s', hs', rfl⟩ := Option.map_eq_some_iff.mp hs
    rw [IndexSampler.modulus_afterDraws]
    exact h.stratum s' hs'
  whole := by
    show (afterDraws _ _ S.whole).modulus = _
    rw [IndexSampler.modulus_afterDraws]
    exact h.whole

/-- All sources of a group of rows, in draw order. -/
def groupPicks (E : Expansion) (S : Samplers) (group row : Nat) : List Pick :=
  (S.stratum.elim [] fun s => blockPicks s.index E.stratumWidth group row E.strata 0) ++
    blockPicks S.whole.index 0 group row (E.weight - E.strata) 0

/-- All sources of `count` groups, in draw order. -/
def groupsPicks (E : Expansion) (S : Samplers) (group count row : Nat) : List Pick :=
  (List.range count).flatMap fun g => E.groupPicks (S.after E (group * g)) group (row + group * g)

theorem groupsPicks_succ (E : Expansion) (S : Samplers) (group count row : Nat) :
    E.groupsPicks S group (count + 1) row =
      E.groupPicks S group row ++ E.groupsPicks (S.after E group) group count (row + group) := by
  simp only [groupsPicks, List.range_succ_eq_map, List.flatMap_cons, List.flatMap_map,
    Nat.mul_zero, Samplers.after_zero, Nat.add_zero, ← Samplers.after_add, Nat.mul_succ]
  congr 2
  funext g
  rw [Nat.add_comm group, Nat.add_assoc, Nat.add_comm group]

/-- Every stratum ends within the columns. -/
theorem stratumWidth_mul_le (E : Expansion) : E.stratumWidth * E.strata ≤ E.sourceSize := by
  rw [stratumWidth]
  split
  · rw [Nat.zero_mul]
    exact Nat.zero_le _
  · exact Nat.div_mul_le_self _ _

theorem stratum_fits (E : Expansion) {t : Nat} (ht : t < E.strata) :
    E.stratumWidth + E.stratumWidth * t ≤ E.sourceSize := by
  have hle := E.stratumWidth_mul_le
  have hmul : E.stratumWidth * (t + 1) ≤ E.stratumWidth * E.strata := Nat.mul_le_mul_left _ ht
  rw [Nat.mul_succ] at hmul
  omega

theorem pickGroup_eq (E : Expansion) (group row : Nat) {S : Samplers} (hS : S.Fit E)
    (picks : Array Pick) :
    E.pickGroup group row S picks =
      .ok (S.after E group, picks ++ (E.groupPicks S group row).toArray) := by
  obtain ⟨stratum, whole⟩ := S
  have hlimit := E.sourceSize_lt
  have hwhole : ∀ picks, pickWhole group row (E.weight - E.strata) whole picks =
      .ok (afterDraws IndexSampler.next (group * (E.weight - E.strata)) whole,
        picks ++ (blockPicks whole.index 0 group row (E.weight - E.strata) 0).toArray) := by
    intro picks
    rw [pickWhole_eq_pickStrata group row _ 0]
    apply pickStrata_eq
    intro t _
    have hm : whole.modulus = max E.sourceSize 1 := hS.whole
    rw [hm, Nat.zero_mul]
    simp only [sizeLimit] at hlimit ⊢
    omega
  cases stratum with
  | none =>
    show (pickWhole group row (E.weight - E.strata) whole picks >>= _) = _
    rw [hwhole]
    rfl
  | some s =>
    have hm : s.modulus = E.stratumWidth := hS.stratum s rfl
    have hstrata := pickStrata_eq E.stratumWidth group row E.strata 0 s picks (by
      intro t ht
      have := E.stratum_fits (t := t) (by omega)
      rw [hm]
      omega)
    show (pickStrata E.stratumWidth group row E.strata 0 s picks >>= _) = _
    rw [hstrata]
    show (pickWhole group row (E.weight - E.strata) whole _ >>= _) = _
    have happend := List.append_toArray (blockPicks s.index E.stratumWidth group row E.strata 0)
      (blockPicks whole.index 0 group row (E.weight - E.strata) 0)
    rw [hwhole, Array.append_assoc, happend]
    rfl

theorem pickGroups_eq (E : Expansion) (group count : Nat) :
    ∀ (row : Nat) (S : Samplers) (picks : Array Pick), S.Fit E →
      E.pickGroups group count row S picks =
        .ok (S.after E (group * count), picks ++ (E.groupsPicks S group count row).toArray) := by
  induction count with
  | zero =>
    intro row S picks _
    rw [Nat.mul_zero, Samplers.after_zero]
    simp [pickGroups, groupsPicks]
  | succ count ih =>
    intro row S picks hS
    rw [pickGroups, E.pickGroup_eq group row hS]
    show E.pickGroups group count (row + group) (S.after E group) _ = _
    rw [ih _ _ _ (hS.after group), ← Samplers.after_add, groupsPicks_succ, Nat.mul_succ,
      Nat.add_comm group]
    simp

/-! ## The whole matrix -/

theorem strata_le_weight (E : Expansion) : E.strata ≤ E.weight := by
  simp only [strata, strataOf, stratifiedShare]
  split <;> omega

theorem stratumWidth_pos (E : Expansion) (h : 0 < E.strata) : 0 < E.stratumWidth := by
  have hw : 0 < E.weight := Nat.lt_of_lt_of_le h E.strata_le_weight
  have hcols : max E.strata 1 ≤ E.sourceSize := E.enoughColumns hw
  rw [stratumWidth, if_neg (by omega)]
  exact Nat.div_pos (by omega) h

/-- Samplers that are fresh from the seed of the expansion. -/
structure Samplers.Seeded (E : Expansion) (S : Samplers) : Prop where
  stratum : 0 < E.strata → ∃ s, S.stratum = some s ∧
    IndexSampler.ofSeed (E.seed ^^^ stratifiedTweak) E.stratumWidth = .ok s
  no_stratum : E.strata = 0 → S.stratum = none
  whole : IndexSampler.ofSeed E.seed (max E.sourceSize 1) = .ok S.whole

theorem samplers_ok (E : Expansion) : ∃ S, E.samplers = .ok S ∧ S.Seeded E := by
  obtain ⟨whole, hwhole⟩ := IndexSampler.ofSeed_ok E.seed (show 0 < max E.sourceSize 1 by omega)
  by_cases h : 0 < E.strata
  · obtain ⟨stratum, hstratum⟩ :=
      IndexSampler.ofSeed_ok (E.seed ^^^ stratifiedTweak) (E.stratumWidth_pos h)
    refine ⟨⟨some stratum, whole⟩, ?_, fun _ => ⟨stratum, rfl, hstratum⟩, ?_, hwhole⟩
    · rw [samplers, if_pos h, hstratum, hwhole]
      rfl
    · intro hzero
      omega
  · refine ⟨⟨none, whole⟩, ?_, fun hpos => absurd hpos h, fun _ => rfl, hwhole⟩
    rw [samplers, if_neg h, hwhole]
    rfl

theorem Samplers.Seeded.fit {E : Expansion} {S : Samplers} (h : S.Seeded E) : S.Fit E where
  stratum s hs := by
    by_cases hpos : 0 < E.strata
    · obtain ⟨t, ht, hseed⟩ := h.stratum hpos
      rw [ht] at hs
      cases hs
      exact IndexSampler.modulus_ofSeed hseed
    · rw [h.no_stratum (by omega)] at hs
      cases hs
  whole := IndexSampler.modulus_ofSeed h.whole

/-- A pick that names a row and a column of the matrix. -/
def Pick.Inside (E : Expansion) (pick : Pick) : Prop :=
  pick.row < E.messageSize ∧ pick.source < E.sourceSize

theorem lanePicks_inside (E : Expansion) {index : Nat → Nat} {modulus offset group row : Nat}
    (hi : ∀ p, index p < modulus) (hm : modulus + offset ≤ E.sourceSize)
    (hr : row + group ≤ E.messageSize) :
    ∀ pick ∈ lanePicks index offset group row, pick.Inside E := by
  intro pick hp
  obtain ⟨p, hlane, rfl⟩ := List.mem_map.mp hp
  have hlt := List.mem_range.mp hlane
  have := hi p
  refine ⟨?_, ?_⟩
  · show row + p < E.messageSize
    omega
  · show index p + offset < E.sourceSize
    omega

theorem groupPicks_inside (E : Expansion) {S : Samplers} (hS : S.Fit E) {group row : Nat}
    (hr : row + group ≤ E.messageSize) : ∀ pick ∈ E.groupPicks S group row, pick.Inside E := by
  intro pick hp
  rcases List.mem_append.mp hp with hp | hp
  · cases hs : S.stratum with
    | none =>
      rw [hs] at hp
      cases hp
    | some s =>
      rw [hs] at hp
      obtain ⟨t, ht, hp⟩ := List.mem_flatMap.mp hp
      have hfit := E.stratum_fits (List.mem_range.mp ht)
      rw [Nat.zero_add] at hp
      refine lanePicks_inside E (fun p => ?_) hfit hr pick hp
      exact hS.stratum s hs ▸ s.index_lt _
  · obtain ⟨t, ht, hp⟩ := List.mem_flatMap.mp hp
    have ht := List.mem_range.mp ht
    have hcols : max E.strata 1 ≤ E.sourceSize := E.enoughColumns (by omega)
    have hfit : max E.sourceSize 1 + 0 ≤ E.sourceSize := by omega
    rw [Nat.zero_mul] at hp
    refine lanePicks_inside E (fun p => ?_) hfit hr pick hp
    exact hS.whole ▸ S.whole.index_lt _

theorem groupsPicks_inside (E : Expansion) {S : Samplers} (hS : S.Fit E) {group count row : Nat}
    (hr : row + group * count ≤ E.messageSize) :
    ∀ pick ∈ E.groupsPicks S group count row, pick.Inside E := by
  intro pick hp
  obtain ⟨g, hg, hp⟩ := List.mem_flatMap.mp hp
  have hg : group * (g + 1) ≤ group * count := Nat.mul_le_mul_left _ (List.mem_range.mp hg)
  rw [Nat.mul_succ] at hg
  exact E.groupPicks_inside (hS.after _) (by omega) pick hp

/-- All sources of all rows, in draw order: those of whole groups, then those of the rows that are
left. -/
def matrixPicks (E : Expansion) (S : Samplers) : List Pick :=
  E.groupsPicks S lanes (E.messageSize / lanes) 0 ++
    E.groupsPicks (S.after E (lanes * (E.messageSize / lanes))) 1 (E.messageSize % lanes)
      (E.messageSize / lanes * lanes)

theorem picks_eq (E : Expansion) {S : Samplers} (hS : E.samplers = .ok S) (hfit : S.Fit E) :
    E.picks = .ok (E.matrixPicks S).toArray := by
  have hmain := E.pickGroups_eq lanes (E.messageSize / lanes) 0 S #[] hfit
  have htail := fun picks => E.pickGroups_eq 1 (E.messageSize % lanes)
    (E.messageSize / lanes * lanes) _ picks (hfit.after (lanes * (E.messageSize / lanes)))
  show (E.samplers >>= _) = _
  rw [hS]
  show (E.pickGroups lanes (E.messageSize / lanes) 0 S #[] >>= _) = _
  rw [hmain]
  show (E.pickGroups 1 (E.messageSize % lanes) (E.messageSize / lanes * lanes) _ _ >>= _) = _
  rw [htail, matrixPicks, ← List.append_toArray, Array.empty_append]
  rfl

theorem matrixPicks_inside (E : Expansion) {S : Samplers} (hfit : S.Fit E) :
    ∀ pick ∈ E.matrixPicks S, pick.Inside E := by
  have hrows : lanes * (E.messageSize / lanes) + E.messageSize % lanes = E.messageSize :=
    Nat.div_add_mod _ _
  intro pick hp
  rcases List.mem_append.mp hp with hp | hp
  · exact E.groupsPicks_inside hfit (by omega) pick hp
  · exact E.groupsPicks_inside (hfit.after _) (by rw [Nat.mul_comm] at hrows; omega) pick hp

theorem picks_ok (E : Expansion) :
    ∃ picks, E.picks = .ok picks ∧ ∀ pick ∈ picks.toList, pick.Inside E := by
  obtain ⟨S, hS, hseeded⟩ := E.samplers_ok
  exact ⟨_, E.picks_eq hS hseeded.fit, E.matrixPicks_inside hseeded.fit⟩

end Expansion
end ExpandConvolute
