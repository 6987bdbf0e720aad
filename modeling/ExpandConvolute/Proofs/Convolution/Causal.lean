import ExpandConvolute.Proofs.Convolution.Lossless
import ExpandConvolute.Proofs.Session.Parts

/-!
# ExpandConvolute.Proofs.Convolution.Causal

A sweep only looks back. In a buffer of at least `width + 2` cells what comes round the end lands
below its source (`ComesRound.lt`), so it is never a source again and stays among the first
`width + 1` cells. Two runs are compared at the cells that can still matter, `Recurrence.Alike`:
those from the present position on, and those beyond the first `width + 1`.

* `getElem?_combine`: at such a cell an update is seen only if it goes straight ahead, without the
  end of the buffer, whatever the size of the buffer is.
* `position_alike`, `stretch_alike`: one position, and any run of positions, keeps two buffers
  alike, also buffers of different sizes.
* `getElem?_stretch_settled`: beyond the first `width + 1` cells, a cell is left alone from its own
  position on.
* `sweep_causal`: a cell of the result depends on the cells up to it and on nothing else.
-/

namespace ExpandConvolute
namespace Convolution

open Edit (Yields)
open Windows (refills)

variable {σ : Type} {m m' : Nat}

/-- A target of position `source` lies past the end of a buffer of `size` cells and comes round to
`cell`. -/
def ComesRound (width size source cell : Nat) : Prop :=
  ∃ d, d ≤ width ∧ size ≤ source + (1 + d) ∧ (source + (1 + d)) % size = cell

theorem ComesRound.lt {width size source cell : Nat} (h : ComesRound width size source cell)
    (hsize : width + 2 ≤ size) (hsource : source < size) : cell < source ∧ cell ≤ width := by
  obtain ⟨d, hd, hpast, hcell⟩ := h
  rw [Nat.mod_eq_sub_mod hpast, Nat.mod_eq_of_lt (by omega)] at hcell
  omega

namespace Recurrence

theorem place_eq_iff {width d j : Nat} {i : Fin m} (hm : width + 2 ≤ m) (hd : d ≤ width)
    (hj : i.val ≤ j ∨ width < j) : (place i (1 + d)).val = j ↔ i.val + (1 + d) = j ∧ j < m := by
  by_cases hpast : m ≤ i.val + (1 + d)
  · have hround : ComesRound width m i.val (place i (1 + d)).val := ⟨d, hd, hpast, rfl⟩
    have hlt := hround.lt hm i.isLt
    omega
  · rw [place_of_lt (by omega)]
    omega

theorem getElem?_combine {width d j : Nat} {i : Fin m} (hm : width + 2 ≤ m) (hd : d ≤ width)
    (hj : i.val ≤ j ∨ width < j) (f : σ → σ → σ) (x : Vector σ m) :
    (combine f (place i (1 + d)) i x)[j]? =
      if i.val + (1 + d) = j then x[j]?.map (f · (x.get i)) else x[j]? := by
  rw [combine, Vector.getElem?_set]
  by_cases hplace : (place i (1 + d)).val = j
  · have hx : x[j]? = some (x.get (place i (1 + d))) := by
      subst hplace
      exact Vector.getElem?_eq_getElem (place_lt i (1 + d))
    rw [if_pos hplace, if_pos ((place_eq_iff hm hd hj).mp hplace).1, hx]
    rfl
  · rw [if_neg hplace]
    split
    · rename_i hij
      have hout : ¬ j < m := fun hlt => hplace ((place_eq_iff hm hd hj).mpr ⟨hij, hlt⟩)
      rw [Vector.getElem?_eq_none (by omega)]
      rfl
    · rfl

/-- Up to cell `last`, two vectors hold the same symbols wherever a sweep that has come to position
`n` may still find a source, and wherever nothing comes round to. -/
def Alike (width n last : Nat) (x : Vector σ m) (x' : Vector σ m') : Prop :=
  ∀ j, j ≤ last → n ≤ j ∨ width < j → x[j]? = x'[j]?

section Alike

variable {width last : Nat} {x : Vector σ m} {x' : Vector σ m'} {i : Fin m} {i' : Fin m'}
  (hm : width + 2 ≤ m) (hm' : width + 2 ≤ m') (hi : i.val = i'.val)

include hm hm' hi

theorem combine_alike (f : σ → σ → σ) {d : Nat} (hd : d ≤ width)
    (h : Alike width i.val last x x') :
    Alike width i.val last (combine f (place i (1 + d)) i x)
      (combine f (place i' (1 + d)) i' x') := by
  intro j hlast hj
  rw [getElem?_combine hm hd hj, getElem?_combine hm' hd (hi ▸ hj), ← hi, h j hlast hj]
  split
  · -- the source lies before its target, so the vectors agree there too
    have hget := h i.val (by omega) (.inl (Nat.le_refl _))
    have hx : x[i.val]? = some (x.get i) := Vector.getElem?_eq_getElem i.isLt
    have hx' : x'[i.val]? = some (x'.get i') := by
      rw [hi]
      exact Vector.getElem?_eq_getElem i'.isLt
    rw [hx, hx'] at hget
    rw [Option.some.inj hget]
  · rfl

theorem position_alike (A : Alphabet σ) (bits : Nat → Bool) (h : Alike width i.val last x x') :
    Alike width i.val last (position A width bits x i) (position A width bits x' i') := by
  have hgates : Alike width i.val last
      ((List.range width).foldl (fun x a => gate A x i (bits a) a) x)
      ((List.range width).foldl (fun x a => gate A x i' (bits a) a) x') := by
    refine List.foldl_rel h ?_
    intro a ha u u' hu
    cases bits a with
    | false => exact hu
    | true => exact combine_alike hm hm' hi A.add (Nat.le_of_lt (List.mem_range.mp ha)) hu
  exact combine_alike hm hm' hi (fun a b => A.scale (A.add a b)) (Nat.le_refl width) hgates

end Alike

theorem Alike.mono {width n n' last : Nat} {x : Vector σ m} {x' : Vector σ m'}
    (h : Alike width n last x x') (hn : n ≤ n') : Alike width n' last x x' := by
  intro j hlast hj
  exact h j hlast (by omega)

theorem getElem?_position_settled {width j : Nat} (hm : width + 2 ≤ m) (A : Alphabet σ)
    (bits : Nat → Bool) (x : Vector σ m) {i : Fin m} (hj : width < j) (hi : j ≤ i.val) :
    (position A width bits x i)[j]? = x[j]? := by
  have hcombine : ∀ (f : σ → σ → σ) (d : Nat), d ≤ width → ∀ u : Vector σ m,
      (combine f (place i (1 + d)) i u)[j]? = u[j]? := by
    intro f d hd u
    rw [getElem?_combine hm hd (.inr hj), if_neg (by omega)]
  have hgates : ((List.range width).foldl (fun x a => gate A x i (bits a) a) x)[j]? = x[j]? := by
    refine List.foldlRecOn (motive := fun u => u[j]? = x[j]?) (List.range width) _ rfl ?_
    intro u hu a ha
    cases bits a with
    | false => exact hu
    | true => exact (hcombine A.add a (Nat.le_of_lt (List.mem_range.mp ha)) u).trans hu
  exact (hcombine (fun a b => A.scale (A.add a b)) width (Nat.le_refl width) _).trans hgates

/-! ## Runs of positions -/

theorem stretch_add (A : Alphabet σ) (width : Nat) (bits : Nat → Nat → Bool) (source n k : Nat)
    (x : Vector σ m) :
    stretch A width bits source (n + k) x =
      stretch A width bits (source + n) k (stretch A width bits source n x) := by
  simp only [stretch, List.take_add, List.drop_drop, List.foldl_append]

section Runs

variable (A : Alphabet σ) {width : Nat} (bits : Nat → Nat → Bool) (hm : width + 2 ≤ m)
include hm

theorem stretch_alike (hm' : width + 2 ≤ m') {last : Nat} (count : Nat) :
    ∀ (n : Nat) (x : Vector σ m) (x' : Vector σ m'), n + count ≤ m → n + count ≤ m' →
      Alike width n last x x' →
      Alike width (n + count) last (stretch A width bits n count x)
        (stretch A width bits n count x') := by
  induction count with
  | zero =>
    intro n x x' _ _ h
    exact h
  | succ count ih =>
    intro n x x' hn hn' h
    let i : Fin m := ⟨n, by omega⟩
    let i' : Fin m' := ⟨n, by omega⟩
    have hi : i.val = i'.val := rfl
    have hstep := position_alike hm hm' hi A (bits n) h
    have hrest := ih (n + 1) _ _ (by omega) (by omega) (hstep.mono (Nat.le_succ n))
    rw [stretch_succ A width bits x i, stretch_succ A width bits x' i', ← Nat.add_assoc,
      Nat.add_right_comm]
    exact hrest

theorem getElem?_stretch_settled {j : Nat} (hj : width < j) (count : Nat) :
    ∀ (n : Nat) (x : Vector σ m), j ≤ n → n + count ≤ m →
      (stretch A width bits n count x)[j]? = x[j]? := by
  induction count with
  | zero =>
    intro n x _ _
    rfl
  | succ count ih =>
    intro n x hjn hn
    let i : Fin m := ⟨n, by omega⟩
    rw [stretch_succ A width bits x i, ih (n + 1) _ (by omega) (by omega)]
    exact getElem?_position_settled hm A (bits n) x hj hjn

theorem getElem?_sweep_settled {j : Nat} (hj : width < j) (hjm : j < m) (x : Vector σ m) :
    (sweep A width bits x)[j]? = (stretch A width bits 0 j x)[j]? := by
  have hsplit := stretch_add A width bits 0 j (m - j) x
  rw [Nat.add_sub_of_le (Nat.le_of_lt hjm), Nat.zero_add] at hsplit
  rw [sweep_eq_stretch, hsplit]
  exact getElem?_stretch_settled A bits hm hj (m - j) j _ (Nat.le_refl j) (by omega)

theorem getElem?_sweep_congr (hm' : width + 2 ≤ m') {x : Vector σ m} {x' : Vector σ m'} {j : Nat}
    (hj : width < j) (hjm : j < m) (hjm' : j < m') (h : ∀ i, i ≤ j → x[i]? = x'[i]?) :
    (sweep A width bits x)[j]? = (sweep A width bits x')[j]? := by
  have hstart : Alike width 0 j x x' := fun i hi _ => h i hi
  have halike := stretch_alike A bits hm hm' j 0 x x' (by omega) (by omega) hstart
  rw [getElem?_sweep_settled A bits hm hj hjm, getElem?_sweep_settled A bits hm' hj hjm']
  exact halike j (Nat.le_refl j) (.inr hj)

end Runs
end Recurrence

/-! ## Buffers -/

/-- The part of a sweep that takes `count` positions from `source` on, with the windows that the
sweep has come to by then. -/
def stretch (C : Convolution) (A : Alphabet σ) (stepper : Stepper) (seed : Seed)
    (source count : Nat) : Edit σ Unit := do
  let size ← Edit.extent
  sweepFrom A stepper (size - (C.width + 1)) count source
    (afterDraws Windows.next source (Windows.ofSeed seed C.width C.width_le))

/-- Buffers of one size that hold the same symbols, except where a position before `n` has come
round to. -/
def SameUnlessRound (width n : Nat) (z z' : Buffer σ) : Prop :=
  z'.size = z.size ∧ ∀ cell, (∀ source, source < n → ¬ ComesRound width z.size source cell) →
    z.cells[cell]? = z'.cells[cell]?

/-- Continued from position `n`, the sweep finds the same symbol at each of its sources in both
buffers and leaves the same symbols beyond the first `width + 1` cells. -/
def ContinuesAlike (C : Convolution) (A : Alphabet σ) (stepper : Stepper) (seed : Seed) (n : Nat)
    (z z' : Buffer σ) : Prop :=
  ∀ count, n + count ≤ z.size → ∃ s s' events,
    Yields (C.stretch A stepper seed n count) z () s events ∧
    Yields (C.stretch A stepper seed n count) z' () s' events ∧
    s.cells[n + count]? = s'.cells[n + count]? ∧
    ∀ j, C.width < j → s.cells[j]? = s'.cells[j]?

/-- In a sweep of `x` that leaves `y`, what comes round lands among the first `width + 1` cells and
below its source, and the sweep goes on as if other symbols had been written there. -/
structure RoundsUnread (C : Convolution) (A : Alphabet σ) (stepper : Stepper) (seed : Seed)
    (x y : Buffer σ) : Prop where
  lands : ∀ source cell, source < x.size → ComesRound C.width x.size source cell →
    cell < source ∧ cell ≤ C.width
  unread : ∀ n, n ≤ x.size → ∃ z before after,
    Yields (C.stretch A stepper seed 0 n) x () z before ∧
    Yields (C.stretch A stepper seed n (x.size - n)) z () y after ∧
    ∀ z', SameUnlessRound C.width n z z' → C.ContinuesAlike A stepper seed n z z'

/-- What a sweep makes of a buffer. -/
def swept (C : Convolution) (A : Alphabet σ) (seed : Seed) (x : Buffer σ) : Buffer σ :=
  .ofVector (Recurrence.sweep A C.width (coefficient seed C.width) x.toVector) x.size_lt

theorem size_swept (C : Convolution) (A : Alphabet σ) (seed : Seed) (x : Buffer σ) :
    (C.swept A seed x).size = x.size := Buffer.size_ofVector _ _

section Buffers

variable (C : Convolution) (A : Alphabet σ) (seed : Seed)

theorem getElem?_swept_congr {x x' : Buffer σ} (hx : C.width + 2 ≤ x.size)
    (hx' : C.width + 2 ≤ x'.size) {j : Nat} (hj : C.width < j) (hjx : j < x.size)
    (h : ∀ i, i ≤ j → x.cells[i]? = x'.cells[i]?) :
    (C.swept A seed x).cells[j]? = (C.swept A seed x').cells[j]? := by
  have hjx' : j < x'.size := by
    have hcell := h j (Nat.le_refl j)
    rw [x.getElem?_of_lt hjx] at hcell
    exact Buffer.lt_of_getElem? hcell.symm
  have hvectors : ∀ i, i ≤ j → x.toVector[i]? = x'.toVector[i]? := by
    intro i hi
    rw [Buffer.getElem?_toVector, Buffer.getElem?_toVector, h i hi]
  rw [swept, swept, Buffer.getElem?_ofVector, Buffer.getElem?_ofVector]
  exact Recurrence.getElem?_sweep_congr A (coefficient seed C.width) hx hx' hj hjx hjx' hvectors

variable (stepper : Stepper)

theorem stretch_yields (hm : m < sizeLimit) (hroom : C.HasRoom m) (source count : Nat)
    (h : source + count ≤ m) :
    ∃ events, ∀ x : Vector σ m,
      Yields (C.stretch A stepper seed source count) (.ofVector x hm) ()
        (.ofVector (Recurrence.stretch A C.width (coefficient seed C.width) source count x) hm)
        events := by
  let w := afterDraws Windows.next source (Windows.ofSeed seed C.width C.width_le)
  obtain ⟨hsource, hwidth, hdrawn⟩ := Windows.fields_afterDraws seed C.width_le source
  refine ⟨refills ((afterDraws Windows.next count w).page - w.page), fun x => ?_⟩
  have hextent := Yields.extent (Buffer.ofVector x hm)
  have hrun := sweepFrom_yields A stepper hm seed count source w x h hdrawn hsource
    (by rw [hwidth]; exact hroom)
  rw [Buffer.size_ofVector] at hextent
  rw [hwidth] at hrun
  exact hextent.andThen hrun

theorem stretch_continuesAlike {n : Nat} {z z' : Buffer σ} (hz : C.width + 2 ≤ z.size)
    (hroom : C.HasRoom z.size) (hn : n ≤ z.size) (h : SameUnlessRound C.width n z z') :
    C.ContinuesAlike A stepper seed n z z' := by
  obtain ⟨v', hm, rfl⟩ := Buffer.exists_ofVector h.1
  have halike : ∀ last, Recurrence.Alike C.width n last z.toVector v' := by
    intro last j _ hj
    have hcells := h.2 j fun source hsource hround => by
      have hlt := hround.lt hz (by omega)
      omega
    rw [Buffer.getElem?_ofVector] at hcells
    rw [Buffer.getElem?_toVector, hcells]
  intro count hcount
  have hcells : ∀ j, n + count ≤ j ∨ C.width < j →
      (Recurrence.stretch A C.width (coefficient seed C.width) n count z.toVector)[j]? =
        (Recurrence.stretch A C.width (coefficient seed C.width) n count v')[j]? := by
    intro j hj
    exact Recurrence.stretch_alike A (coefficient seed C.width) hz hz count n _ _ hcount hcount
      (halike j) j (Nat.le_refl j) hj
  obtain ⟨events, hrun⟩ := C.stretch_yields A seed stepper hm hroom n count hcount
  have hfirst := hrun z.toVector
  rw [Buffer.ofVector_toVector] at hfirst
  refine ⟨_, _, events, hfirst, hrun v', ?_, ?_⟩
  · rw [Buffer.getElem?_ofVector, Buffer.getElem?_ofVector]
    exact hcells _ (.inl (Nat.le_refl _))
  · intro j hj
    rw [Buffer.getElem?_ofVector, Buffer.getElem?_ofVector]
    exact hcells j (.inr hj)

theorem swept_roundsUnread {x : Buffer σ} (hx : C.width + 2 ≤ x.size)
    (hroom : C.HasRoom x.size) :
    C.RoundsUnread A stepper seed x (C.swept A seed x) where
  lands source cell hsource hround := hround.lt hx hsource
  unread n hn := by
    have hall : n + (x.size - n) = x.size := Nat.add_sub_of_le hn
    obtain ⟨before, hbefore⟩ := C.stretch_yields A seed stepper x.size_lt hroom 0 n
      (Nat.le_trans (Nat.le_of_eq (Nat.zero_add n)) hn)
    obtain ⟨after, hafter⟩ := C.stretch_yields A seed stepper x.size_lt hroom n (x.size - n)
      (Nat.le_of_eq hall)
    have hstart := hbefore x.toVector
    rw [Buffer.ofVector_toVector] at hstart
    have hsplit := Recurrence.stretch_add A C.width (coefficient seed C.width) 0 n (x.size - n)
      x.toVector
    rw [hall, Nat.zero_add, ← Recurrence.sweep_eq_stretch] at hsplit
    refine ⟨_, before, after, hstart, ?_, ?_⟩
    · rw [swept, hsplit]
      exact hafter _
    · intro z' hz'
      apply C.stretch_continuesAlike A seed stepper _ _ _ hz'
      · rw [Buffer.size_ofVector]
        exact hx
      · rw [Buffer.size_ofVector]
        exact hroom
      · rw [Buffer.size_ofVector]
        exact hn

end Buffers

/-- Beyond the first `width + 1` cells, sweeps of two buffers agree with each other as far as the
buffers do, however long they are and in whichever form the coefficients are read. What comes round
the end of the buffer is not read again. -/
theorem sweep_causal (C : Convolution) (A : Alphabet σ) (seed : Seed) {stepper stepper' : Stepper}
    (hs : C.Accepts stepper) (hs' : C.Accepts stepper') {x x' : Buffer σ}
    (hx : C.width + 2 ≤ x.size) (hx' : C.width + 2 ≤ x'.size) (hroom : C.HasRoom x.size)
    (hroom' : C.HasRoom x'.size) :
    ∃ y y' events events',
      Yields (C.sweep A stepper seed) x () y events ∧ y.size = x.size ∧
      Yields (C.sweep A stepper' seed) x' () y' events' ∧ y'.size = x'.size ∧
      (x'.take x.size = x →
        ∀ j, C.width < j → j < x.size → y.cells[j]? = y'.cells[j]?) ∧
      (∀ j, C.width < j → j < x.size → (∀ i, i ≤ j → x.cells[i]? = x'.cells[i]?) →
        y.cells[j]? = y'.cells[j]?) ∧
      C.RoundsUnread A stepper seed x y := by
  have hcells : ∀ j, C.width < j → j < x.size → (∀ i, i ≤ j → x.cells[i]? = x'.cells[i]?) →
      (C.swept A seed x).cells[j]? = (C.swept A seed x').cells[j]? :=
    fun j hj hjx h => C.getElem?_swept_congr A seed hx hx' hj hjx h
  have hrun := sweep_yields A x.size_lt hs hroom seed x.toVector
  have hrun' := sweep_yields A x'.size_lt hs' hroom' seed x'.toVector
  rw [Buffer.ofVector_toVector] at hrun hrun'
  refine ⟨C.swept A seed x, C.swept A seed x', _, _, hrun, C.size_swept A seed x, hrun',
    C.size_swept A seed x', ?_, hcells, C.swept_roundsUnread A seed stepper hx hroom⟩
  intro hprefix j hj hjx
  apply hcells j hj hjx
  intro i hi
  rw [← hprefix, Buffer.getElem?_take, if_pos (by omega)]

theorem sweep_causal_at_integers :
    let C : Convolution := ⟨3, false, by decide⟩
    let A := Alphabet.integers 8
    let x : Buffer (BitVec 8) := .ofVector #v[1, 2, 3, 4, 5] (by decide)
    let x' : Buffer (BitVec 8) := .ofVector #v[1, 2, 3, 4, 5, 6, 7] (by decide)
    C.Accepts .bytewise ∧ C.Accepts (.packed 3) ∧ C.width + 2 ≤ x.size ∧ C.width + 2 ≤ x'.size ∧
      C.HasRoom x.size ∧ C.HasRoom x'.size ∧ x'.take x.size = x ∧
      ∃ y y' events events',
        Yields (C.sweep A .bytewise 7#128) x () y events ∧
        Yields (C.sweep A (.packed 3) 7#128) x' () y' events' ∧
        y.cells[4]? = y'.cells[4]? ∧ C.RoundsUnread A .bytewise 7#128 x y := by
  intro C A x x'
  have hs : C.Accepts .bytewise := nofun
  have hs' : C.Accepts (.packed 3) := by
    rintro _ ⟨⟩
    rfl
  have hx : C.width + 2 ≤ x.size := by decide
  have hx' : C.width + 2 ≤ x'.size := by decide
  have hroom : C.HasRoom x.size := C.hasRoom_of_lt (by decide)
  have hroom' : C.HasRoom x'.size := C.hasRoom_of_lt (by decide)
  have hprefix : x'.take x.size = x := by decide
  obtain ⟨y, y', events, events', hy, -, hy', -, hagree, -, hround⟩ :=
    sweep_causal C A 7#128 hs hs' hx hx' hroom hroom'
  exact ⟨hs, hs', hx, hx', hroom, hroom', hprefix, y, y', events, events', hy, hy',
    hagree hprefix 4 (by decide) (by decide), hround⟩

end Convolution
end ExpandConvolute
