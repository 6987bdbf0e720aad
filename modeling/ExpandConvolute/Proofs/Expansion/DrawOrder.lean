import ExpandConvolute.Proofs.Expansion.Rows
import Mathlib.Data.Set.Function

/-!
# ExpandConvolute.Proofs.Expansion.DrawOrder

Which draw becomes which entry of the matrix. Both samplers are read in the same pattern, so one
number, `drawNumber`, says it for both: within whole groups the rows of a group take turns, and
every row that is left takes its entries one after the other.

* `rowOf_groupsPicks`: a row of a run of groups, from the draws of samplers that may have been
  moved on. The induction is on the groups; `Samplers.Reads.after` moves the samplers.
* `rows_eq_entries`: the closed form of the whole matrix.
* `eachDrawOnce`: the draws of the matrix are used once each.
-/

namespace ExpandConvolute

namespace IndexSampler

/-- `f d` is draw number `d`, counted from zero, of the sampler of a seed. -/
def Draws (seed : Seed) (modulus : Nat) (f : Nat → Nat) : Prop :=
  ∃ s, ofSeed seed modulus = .ok s ∧ ∀ d, (afterDraws next d s).next.1 = f d

theorem draws_index {seed : Seed} {modulus : Nat} {s : IndexSampler}
    (h : ofSeed seed modulus = .ok s) : Draws seed modulus s.index :=
  ⟨s, h, s.next_afterDraws⟩

theorem Draws.eq_index {seed : Seed} {modulus : Nat} {f : Nat → Nat} (hf : Draws seed modulus f)
    {s : IndexSampler} (h : ofSeed seed modulus = .ok s) : s.index = f := by
  obtain ⟨t, ht, hdraws⟩ := hf
  rw [h] at ht
  cases ht
  funext d
  rw [← hdraws d, next_afterDraws]

end IndexSampler

namespace Expansion

open IndexSampler (Draws)

/-! ## Rows of picks -/

theorem rowOf_flatMap {α : Type} (l : List α) (f : α → List Pick) (i : Nat) :
    rowOf (l.flatMap f) i = l.flatMap fun a => rowOf (f a) i := by
  induction l with
  | nil => rfl
  | cons a l ih => rw [List.flatMap_cons, rowOf_append, ih, List.flatMap_cons]

theorem rowOf_outside {picks : List Pick} {row group i : Nat}
    (hpicks : ∀ pick ∈ picks, row ≤ pick.row ∧ pick.row < row + group)
    (hi : i < row ∨ row + group ≤ i) : rowOf picks i = [] := by
  rw [List.eq_nil_iff_forall_not_mem]
  intro s hs
  have hrow : row ≤ i ∧ i < row + group := hpicks _ (mem_rowOf.mp hs)
  omega

theorem row_of_mem_lanePicks {index : Nat → Nat} {offset group row : Nat} :
    ∀ pick ∈ lanePicks index offset group row, row ≤ pick.row ∧ pick.row < row + group := by
  intro pick hp
  obtain ⟨p, hlane, rfl⟩ := List.mem_map.mp hp
  have := List.mem_range.mp hlane
  show row ≤ row + p ∧ row + p < row + group
  omega

theorem row_of_mem_blockPicks {index : Nat → Nat} {width group row count first : Nat} :
    ∀ pick ∈ blockPicks index width group row count first,
      row ≤ pick.row ∧ pick.row < row + group := by
  intro pick hp
  obtain ⟨j, -, hp⟩ := List.mem_flatMap.mp hp
  exact row_of_mem_lanePicks pick hp

theorem row_of_mem_groupPicks {E : Expansion} {S : Samplers} {group row : Nat} :
    ∀ pick ∈ E.groupPicks S group row, row ≤ pick.row ∧ pick.row < row + group := by
  intro pick hp
  rcases List.mem_append.mp hp with hp | hp
  · cases hs : S.stratum with
    | none =>
      rw [hs] at hp
      cases hp
    | some s =>
      rw [hs] at hp
      exact row_of_mem_blockPicks pick hp
  · exact row_of_mem_blockPicks pick hp

theorem row_of_mem_groupsPicks {E : Expansion} {S : Samplers} {group count row : Nat} :
    ∀ pick ∈ E.groupsPicks S group count row,
      row ≤ pick.row ∧ pick.row < row + group * count := by
  intro pick hp
  obtain ⟨g, hg, hp⟩ := List.mem_flatMap.mp hp
  have hg : group * (g + 1) ≤ group * count := Nat.mul_le_mul_left _ (List.mem_range.mp hg)
  have hrow := row_of_mem_groupPicks pick hp
  rw [Nat.mul_succ] at hg
  omega

theorem rowOf_lanePicks (index : Nat → Nat) (offset group row : Nat) {p : Nat} (hp : p < group) :
    rowOf (lanePicks index offset group row) (row + p) = [index p + offset] := by
  induction group generalizing index row p with
  | zero => omega
  | succ group ih =>
    rw [lanePicks_succ, rowOf_cons]
    cases p with
    | zero =>
      have hrest : rowOf (lanePicks (fun p => index (p + 1)) offset group (row + 1)) (row + 0) =
          [] := rowOf_outside row_of_mem_lanePicks (by omega)
      rw [if_pos (Nat.add_zero row).symm, hrest]
    | succ p =>
      have hne : row ≠ row + (p + 1) := by omega
      have hnext : row + (p + 1) = row + 1 + p := by omega
      rw [if_neg hne, hnext, ih _ _ (by omega)]

theorem rowOf_blockPicks (index : Nat → Nat) (width group row count first : Nat) {p : Nat}
    (hp : p < group) :
    rowOf (blockPicks index width group row count first) (row + p) =
      (List.range count).map fun j => index (group * j + p) + width * (first + j) := by
  rw [blockPicks, rowOf_flatMap, List.map_eq_flatMap]
  congr 1
  funext j
  exact rowOf_lanePicks _ _ _ _ hp

/-! ## Rows of groups -/

/-- What samplers are going to draw. -/
structure Samplers.Reads (E : Expansion) (S : Samplers) (R F : Nat → Nat) : Prop where
  stratum : 0 < E.strata → ∃ s, S.stratum = some s ∧ s.index = R
  whole : S.whole.index = F

theorem Samplers.Reads.after {E : Expansion} {S : Samplers} {R F : Nat → Nat}
    (h : S.Reads E R F) (rows : Nat) :
    (S.after E rows).Reads E (fun d => R (rows * E.strata + d))
      (fun d => F (rows * (E.weight - E.strata) + d)) where
  stratum hpos := by
    obtain ⟨s, hs, rfl⟩ := h.stratum hpos
    refine ⟨afterDraws IndexSampler.next (rows * E.strata) s, ?_, ?_⟩
    · show S.stratum.map _ = _
      rw [hs]
      rfl
    · exact funext (s.index_afterDraws _)
  whole := by
    obtain rfl := h.whole
    exact funext (S.whole.index_afterDraws _)

theorem rowOf_groupPicks (E : Expansion) {S : Samplers} {R F : Nat → Nat} (hS : S.Reads E R F)
    (group row : Nat) {p : Nat} (hp : p < group) :
    rowOf (E.groupPicks S group row) (row + p) =
      ((List.range E.strata).map fun j => E.stratumWidth * j + R (group * j + p)) ++
        (List.range (E.weight - E.strata)).map fun t => F (group * t + p) := by
  have hwhole := rowOf_blockPicks S.whole.index 0 group row (E.weight - E.strata) 0 hp
  simp only [Nat.zero_mul, Nat.add_zero, hS.whole] at hwhole
  rw [groupPicks, rowOf_append, hS.whole, hwhole]
  congr 1
  by_cases hpos : 0 < E.strata
  · obtain ⟨s, hs, rfl⟩ := hS.stratum hpos
    rw [hs]
    show rowOf (blockPicks s.index E.stratumWidth group row E.strata 0) (row + p) = _
    rw [rowOf_blockPicks _ _ _ _ _ _ hp]
    congr 1
    funext j
    rw [Nat.zero_add, Nat.add_comm]
  · have hzero : E.strata = 0 := by omega
    cases S.stratum with
    | none => simp [hzero]
    | some s => simp [hzero, blockPicks]

/-- Row `p` of group `g`: the groups before it have moved both samplers on. -/
theorem rowOf_groupsPicks (E : Expansion) (group count : Nat) :
    ∀ (row : Nat) (S : Samplers) (R F : Nat → Nat), S.Reads E R F →
      ∀ {g p : Nat}, g < count → p < group →
        rowOf (E.groupsPicks S group count row) (row + group * g + p) =
          ((List.range E.strata).map fun j =>
            E.stratumWidth * j + R (group * g * E.strata + (group * j + p))) ++
          (List.range (E.weight - E.strata)).map fun t =>
            F (group * g * (E.weight - E.strata) + (group * t + p)) := by
  induction count with
  | zero =>
    intro row S R F _ g p hg
    omega
  | succ count ih =>
    intro row S R F hS g p hg hp
    rw [groupsPicks_succ, rowOf_append]
    cases g with
    | zero =>
      have hrest : rowOf (E.groupsPicks (S.after E group) group count (row + group))
          (row + group * 0 + p) = [] := rowOf_outside row_of_mem_groupsPicks (by omega)
      rw [hrest, List.append_nil, Nat.mul_zero, Nat.add_zero, E.rowOf_groupPicks hS group row hp]
      simp only [Nat.zero_mul, Nat.zero_add]
    | succ g =>
      have hfirst : rowOf (E.groupPicks S group row) (row + group * (g + 1) + p) = [] :=
        rowOf_outside row_of_mem_groupPicks (by rw [Nat.mul_succ]; omega)
      have hrow : row + group * (g + 1) + p = row + group + group * g + p := by
        rw [Nat.mul_succ]
        omega
      have hdraw : ∀ n d, group * (g + 1) * n + d = group * n + (group * g * n + d) := by
        intro n d
        rw [Nat.mul_succ, Nat.add_mul]
        omega
      rw [hfirst, List.nil_append, hrow, ih _ _ _ _ (hS.after group) (by omega) hp]
      simp only [hdraw]

/-! ## The whole matrix -/

/-- The number of the draw, by one sampler, for entry `j` of row `i`, if the sampler draws `count`
entries of every row. -/
def drawNumber (messageSize count i j : Nat) : Nat :=
  if i < lanes * (messageSize / lanes) then lanes * (i / lanes * count + j) + i % lanes
  else i * count + j

/-- Entry `j` of row `i`, if `R` are the draws within strata and `F` those from all columns. -/
def entry (E : Expansion) (R F : Nat → Nat) (i j : Nat) : Nat :=
  if j < E.strata then E.stratumWidth * j + R (drawNumber E.messageSize E.strata i j)
  else F (drawNumber E.messageSize (E.weight - E.strata) i (j - E.strata))

theorem rowOf_matrixPicks (E : Expansion) {S : Samplers} {R F : Nat → Nat} (hS : S.Reads E R F)
    {i : Nat} (hi : i < E.messageSize) :
    rowOf (E.matrixPicks S) i =
      ((List.range E.strata).map fun j =>
        E.stratumWidth * j + R (drawNumber E.messageSize E.strata i j)) ++
      (List.range (E.weight - E.strata)).map fun t =>
        F (drawNumber E.messageSize (E.weight - E.strata) i t) := by
  have hrows : lanes * (E.messageSize / lanes) + E.messageSize % lanes = E.messageSize :=
    Nat.div_add_mod _ _
  rw [matrixPicks, rowOf_append, Nat.mul_comm (E.messageSize / lanes)]
  by_cases hgrouped : i < lanes * (E.messageSize / lanes)
  · have htail : rowOf (E.groupsPicks (S.after E (lanes * (E.messageSize / lanes))) 1
        (E.messageSize % lanes) (lanes * (E.messageSize / lanes))) i = [] :=
      rowOf_outside row_of_mem_groupsPicks (.inl hgrouped)
    have hsplit : i = 0 + lanes * (i / lanes) + i % lanes := by
      rw [Nat.zero_add, Nat.div_add_mod]
    have hhead := E.rowOf_groupsPicks lanes (E.messageSize / lanes) 0 S R F hS
      (Nat.div_lt_of_lt_mul hgrouped) (Nat.mod_lt i (by decide : 0 < lanes))
    rw [← hsplit] at hhead
    have hdraw : ∀ count j, drawNumber E.messageSize count i j =
        lanes * (i / lanes) * count + (lanes * j + i % lanes) := by
      intro count j
      rw [drawNumber, if_pos hgrouped, Nat.mul_add, ← Nat.mul_assoc, Nat.add_assoc]
    simp only [htail, List.append_nil, hhead, hdraw]
  · have hhead : rowOf (E.groupsPicks S lanes (E.messageSize / lanes) 0) i = [] :=
      rowOf_outside row_of_mem_groupsPicks (by omega)
    have hsplit : lanes * (E.messageSize / lanes) + 1 * (i - lanes * (E.messageSize / lanes)) + 0 =
        i := by omega
    have htail := E.rowOf_groupsPicks 1 (E.messageSize % lanes)
      (lanes * (E.messageSize / lanes)) _ _ _ (hS.after (lanes * (E.messageSize / lanes)))
      (show i - lanes * (E.messageSize / lanes) < _ by omega) Nat.one_pos
    rw [hsplit] at htail
    have hdraw : ∀ count j, drawNumber E.messageSize count i j =
        lanes * (E.messageSize / lanes) * count +
          (1 * (i - lanes * (E.messageSize / lanes)) * count + (1 * j + 0)) := by
      intro count j
      have hi : i = lanes * (E.messageSize / lanes) + (i - lanes * (E.messageSize / lanes)) := by
        omega
      rw [drawNumber, if_neg hgrouped, Nat.one_mul, Nat.one_mul, Nat.add_zero, ← Nat.add_assoc,
        ← Nat.add_mul, ← hi]
    simp only [hhead, List.nil_append, htail, hdraw]

theorem row_eq_entries (E : Expansion) {R F : Nat → Nat}
    (hR : 0 < E.strata → Draws (E.seed ^^^ stratifiedTweak) E.stratumWidth R)
    (hF : Draws E.seed (max E.sourceSize 1) F) {i : Nat} (hi : i < E.messageSize) :
    rowOf E.sources i = (List.range E.weight).map (E.entry R F i) := by
  obtain ⟨S, hS, hseeded⟩ := E.samplers_ok
  have hreads : S.Reads E R F := by
    refine ⟨fun hpos => ?_, hF.eq_index hseeded.whole⟩
    obtain ⟨s, hs, hseed⟩ := hseeded.stratum hpos
    exact ⟨s, hs, (hR hpos).eq_index hseed⟩
  have hsources : E.sources = E.matrixPicks S := by
    rw [sources, E.picks_eq hS hseeded.fit]
  have hweight : E.weight = E.strata + (E.weight - E.strata) := by
    have := E.strata_le_weight
    omega
  rw [hsources, E.rowOf_matrixPicks hreads hi, hweight, List.range_add, List.map_append,
    List.map_map, ← hweight]
  congr 1
  · apply List.map_congr_left
    intro j hj
    exact (if_pos (List.mem_range.mp hj)).symm
  · apply List.map_congr_left
    intro t _
    simp [entry]

theorem rows_eq_entries (E : Expansion) {R F : Nat → Nat}
    (hR : 0 < E.strata → Draws (E.seed ^^^ stratifiedTweak) E.stratumWidth R)
    (hF : Draws E.seed (max E.sourceSize 1) F) :
    E.rows = .ok (Array.ofFn fun i : Fin E.messageSize =>
      Array.ofFn fun j : Fin E.weight => E.entry R F i.val j.val) := by
  rw [E.rows_ok]
  congr 2
  funext i
  rw [E.row_eq_entries hR hF i.isLt]
  apply Array.ext_getElem?
  intro j
  rw [Array.getElem?_ofFn, List.getElem?_toArray, List.getElem?_map]
  by_cases h : j < E.weight
  · simp [h]
  · simp [h]

/-- The entries of the matrix that are drawn by one sampler, `count` in every row, take the first
`messageSize * count` draws, every one of them once. -/
def EachDrawOnce (messageSize count : Nat) : Prop :=
  Set.BijOn (fun cell : Nat × Nat => drawNumber messageSize count cell.1 cell.2)
    {cell | cell.1 < messageSize ∧ cell.2 < count} {d | d < messageSize * count}

/-- The row and the entry that a draw is used for. -/
def drawCell (messageSize count d : Nat) : Nat × Nat :=
  if d < lanes * (messageSize / lanes) * count then
    (lanes * (d / lanes / count) + d % lanes, d / lanes % count)
  else (d / count, d % count)

/-- A cell of a table with `count` columns, counted row by row. -/
theorem cell_lt {i j k count : Nat} (hi : i < k) (hj : j < count) : i * count + j < k * count := by
  have hmul : (i + 1) * count ≤ k * count := Nat.mul_le_mul_right count hi
  rw [Nat.succ_mul] at hmul
  omega

theorem cell_div {i j count : Nat} (hj : j < count) :
    (i * count + j) / count = i ∧ (i * count + j) % count = j := by
  have hpos : 0 < count := by omega
  rw [Nat.mul_comm, Nat.mul_add_div hpos, Nat.mul_add_mod, Nat.div_eq_of_lt hj,
    Nat.mod_eq_of_lt hj]
  exact ⟨Nat.add_zero i, rfl⟩

section Cells

variable {messageSize count : Nat}

theorem drawNumber_grouped {i j : Nat} (hi : i < lanes * (messageSize / lanes)) (hj : j < count) :
    drawNumber messageSize count i j = (i / lanes * count + j) * lanes + i % lanes ∧
      drawNumber messageSize count i j < lanes * (messageSize / lanes) * count := by
  have hnumber : drawNumber messageSize count i j =
      (i / lanes * count + j) * lanes + i % lanes := by
    rw [drawNumber, if_pos hi, Nat.mul_comm lanes]
  refine ⟨hnumber, ?_⟩
  have hcell := cell_lt (Nat.div_lt_of_lt_mul hi) hj
  have hlane : i % lanes < lanes := Nat.mod_lt _ (by decide)
  rw [hnumber, Nat.mul_assoc, Nat.mul_comm lanes]
  exact cell_lt hcell hlane

theorem drawNumber_lt {i j : Nat} (hi : i < messageSize) (hj : j < count) :
    drawNumber messageSize count i j < messageSize * count := by
  by_cases hgrouped : i < lanes * (messageSize / lanes)
  · have hle : lanes * (messageSize / lanes) * count ≤ messageSize * count :=
      Nat.mul_le_mul_right count (Nat.mul_div_le messageSize lanes)
    exact Nat.lt_of_lt_of_le (drawNumber_grouped hgrouped hj).2 hle
  · rw [drawNumber, if_neg hgrouped]
    exact cell_lt hi hj

theorem drawCell_drawNumber {i j : Nat} (hj : j < count) :
    drawCell messageSize count (drawNumber messageSize count i j) = (i, j) := by
  by_cases hi : i < lanes * (messageSize / lanes)
  · obtain ⟨hnumber, hlt⟩ := drawNumber_grouped hi hj
    have hlane : i % lanes < lanes := Nat.mod_lt _ (by decide)
    obtain ⟨hblock, hlast⟩ := cell_div (i := i / lanes * count + j) hlane
    obtain ⟨hgroup, hentry⟩ := cell_div (i := i / lanes) hj
    rw [drawCell, if_pos hlt, hnumber, hblock, hlast, hgroup, hentry, Nat.div_add_mod]
  · have hnumber : drawNumber messageSize count i j = i * count + j := if_neg hi
    have hge : lanes * (messageSize / lanes) * count ≤ i * count :=
      Nat.mul_le_mul_right count (by omega)
    obtain ⟨hrow, hentry⟩ := cell_div (i := i) hj
    rw [drawCell, if_neg (by omega), hnumber, hrow, hentry]

theorem drawCell_grouped {d : Nat} (hd : d < lanes * (messageSize / lanes) * count) :
    (drawCell messageSize count d).1 = d / lanes / count * lanes + d % lanes ∧
      (drawCell messageSize count d).1 < lanes * (messageSize / lanes) := by
  have hrow : (drawCell messageSize count d).1 = d / lanes / count * lanes + d % lanes := by
    rw [drawCell, if_pos hd, Nat.mul_comm lanes]
  refine ⟨hrow, ?_⟩
  rw [Nat.mul_assoc, Nat.mul_comm (messageSize / lanes)] at hd
  have hgroup : d / lanes / count < messageSize / lanes :=
    Nat.div_lt_of_lt_mul (Nat.div_lt_of_lt_mul hd)
  rw [hrow, Nat.mul_comm lanes]
  exact cell_lt hgroup (Nat.mod_lt _ (by decide))

theorem drawCell_mem {d : Nat} (hd : d < messageSize * count) :
    (drawCell messageSize count d).1 < messageSize ∧ (drawCell messageSize count d).2 < count := by
  have hpos : 0 < count := Nat.pos_of_ne_zero fun h => by simp [h] at hd
  by_cases hgrouped : d < lanes * (messageSize / lanes) * count
  · refine ⟨?_, ?_⟩
    · exact Nat.lt_of_lt_of_le (drawCell_grouped hgrouped).2 (Nat.mul_div_le messageSize lanes)
    · rw [drawCell, if_pos hgrouped]
      exact Nat.mod_lt _ hpos
  · rw [drawCell, if_neg hgrouped]
    exact ⟨Nat.div_lt_of_lt_mul (by rw [Nat.mul_comm]; exact hd), Nat.mod_lt _ hpos⟩

theorem drawNumber_drawCell (hpos : 0 < count) (d : Nat) :
    drawNumber messageSize count (drawCell messageSize count d).1
      (drawCell messageSize count d).2 = d := by
  by_cases hd : d < lanes * (messageSize / lanes) * count
  · obtain ⟨hrow, hlt⟩ := drawCell_grouped hd
    have hentry : (drawCell messageSize count d).2 = d / lanes % count := by
      rw [drawCell, if_pos hd]
    obtain ⟨hgroup, hlast⟩ := cell_div (i := d / lanes / count)
      (Nat.mod_lt d (by decide : 0 < lanes))
    rw [drawNumber, if_pos hlt, hrow, hentry, hgroup, hlast, Nat.div_add_mod', Nat.div_add_mod]
  · have hge : ¬ d / count < lanes * (messageSize / lanes) := by
      rw [Nat.div_lt_iff_lt_mul hpos]
      exact hd
    rw [drawCell, if_neg hd, drawNumber, if_neg hge, Nat.div_add_mod']

theorem eachDrawOnce (messageSize count : Nat) : EachDrawOnce messageSize count := by
  have hinv : Set.InvOn (drawCell messageSize count)
      (fun cell : Nat × Nat => drawNumber messageSize count cell.1 cell.2)
      {cell | cell.1 < messageSize ∧ cell.2 < count} {d | d < messageSize * count} := by
    constructor
    · rintro ⟨i, j⟩ ⟨-, hj⟩
      exact drawCell_drawNumber hj
    · intro d hd
      have hpos : 0 < count := Nat.zero_lt_of_lt (drawCell_mem hd).2
      exact drawNumber_drawCell hpos d
  refine hinv.bijOn ?_ ?_
  · rintro ⟨i, j⟩ ⟨hi, hj⟩
    exact drawNumber_lt hi hj
  · intro d hd
    exact drawCell_mem hd

end Cells

theorem exists_draws (E : Expansion) :
    ∃ R F : Nat → Nat,
      (0 < E.strata → Draws (E.seed ^^^ stratifiedTweak) E.stratumWidth R) ∧
      Draws E.seed (max E.sourceSize 1) F := by
  obtain ⟨S, -, hseeded⟩ := E.samplers_ok
  have hF := IndexSampler.draws_index hseeded.whole
  by_cases hpos : 0 < E.strata
  · obtain ⟨s, -, hs⟩ := hseeded.stratum hpos
    exact ⟨s.index, _, fun _ => IndexSampler.draws_index hs, hF⟩
  · exact ⟨id, _, fun h => absurd h hpos, hF⟩

/-- The expansion with another number of rows. -/
def resized (E : Expansion) (messageSize : Nat) : Expansion := { E with messageSize := messageSize }

theorem entry_resized (E : Expansion) (R F : Nat → Nat) {messageSize i : Nat}
    (hi : i < lanes * (E.messageSize / lanes)) (hi' : i < lanes * (messageSize / lanes)) (j : Nat) :
    (E.resized messageSize).entry R F i j = E.entry R F i j := by
  have hnumber : ∀ count j,
      drawNumber messageSize count i j = drawNumber E.messageSize count i j := by
    intro count j
    rw [drawNumber, drawNumber, if_pos hi, if_pos hi']
  show (if j < E.strata then E.stratumWidth * j + R (drawNumber messageSize E.strata i j)
    else F (drawNumber messageSize (E.weight - E.strata) i (j - E.strata))) = _
  rw [hnumber, hnumber]
  rfl

/-- Rows of whole groups do not depend on how many rows there are. -/
theorem take_rows_resized (E : Expansion) (messageSize : Nat) :
    ∃ rows rows', E.rows = .ok rows ∧ (E.resized messageSize).rows = .ok rows' ∧
      rows.take (lanes * (min E.messageSize messageSize / lanes)) =
        rows'.take (lanes * (min E.messageSize messageSize / lanes)) := by
  obtain ⟨R, F, hR, hF⟩ := E.exists_draws
  refine ⟨_, _, E.rows_eq_entries hR hF, (E.resized messageSize).rows_eq_entries hR hF, ?_⟩
  let shared := lanes * (min E.messageSize messageSize / lanes)
  have hle : shared ≤ E.messageSize ∧ shared ≤ messageSize := by
    have := Nat.mul_div_le (min E.messageSize messageSize) lanes
    omega
  have hgroups : shared ≤ lanes * (E.messageSize / lanes) ∧
      shared ≤ lanes * (messageSize / lanes) :=
    ⟨Nat.mul_le_mul_left _ (Nat.div_le_div_right (Nat.min_le_left _ _)),
      Nat.mul_le_mul_left _ (Nat.div_le_div_right (Nat.min_le_right _ _))⟩
  have hmin : min shared (E.resized messageSize).messageSize = shared := Nat.min_eq_left hle.2
  apply Array.ext_getElem?
  intro i
  show (Array.take _ shared)[i]? = (Array.take _ shared)[i]?
  rw [Array.take_eq_extract, Array.take_eq_extract, Array.getElem?_extract,
    Array.getElem?_extract, Array.size_ofFn, Array.size_ofFn, Nat.min_eq_left hle.1, hmin,
    Nat.sub_zero]
  by_cases hi : i < shared
  · have hrow : i < E.messageSize := by omega
    have hrow' : i < (E.resized messageSize).messageSize := Nat.lt_of_lt_of_le hi hle.2
    rw [if_pos hi, if_pos hi, Nat.zero_add, Array.getElem?_ofFn, Array.getElem?_ofFn,
      dif_pos hrow, dif_pos hrow']
    congr 2
    funext j
    exact (E.entry_resized R F (Nat.lt_of_lt_of_le hi hgroups.1)
      (Nat.lt_of_lt_of_le hi hgroups.2) j.val).symm
  · rw [if_neg hi, if_neg hi]

/-- The matrix entry by entry: `R` and `F` are the draws of the two samplers, and `rows` is made of
`entry R F`. Of the draws of either sampler those that the matrix needs are taken once each. Two
expansions that differ in the number of their rows only agree in the rows of the groups that both
have. -/
theorem rows_in_draw_order (E : Expansion) :
    ∃ R F : Nat → Nat,
      (0 < E.strata → Draws (E.seed ^^^ stratifiedTweak) E.stratumWidth R) ∧
      Draws E.seed (max E.sourceSize 1) F ∧
      E.rows = .ok (Array.ofFn fun i : Fin E.messageSize =>
        Array.ofFn fun j : Fin E.weight => E.entry R F i.val j.val) ∧
      EachDrawOnce E.messageSize E.strata ∧
      EachDrawOnce E.messageSize (E.weight - E.strata) ∧
      ∀ messageSize, ∃ rows rows', E.rows = .ok rows ∧ (E.resized messageSize).rows = .ok rows' ∧
        rows.take (lanes * (min E.messageSize messageSize / lanes)) =
          rows'.take (lanes * (min E.messageSize messageSize / lanes)) := by
  obtain ⟨R, F, hR, hF⟩ := E.exists_draws
  exact ⟨R, F, hR, hF, E.rows_eq_entries hR hF, eachDrawOnce _ _, eachDrawOnce _ _,
    E.take_rows_resized⟩

end Expansion
end ExpandConvolute
