import ExpandConvolute.Proofs.Convolution.Position
import ExpandConvolute.Proofs.Convolution.Windows

/-!
# ExpandConvolute.Proofs.Convolution.Sweep

A sweep, and the whole convolution, against the recurrence on vectors of a fixed length.

* `sweepFrom_yields`: the loop invariant. When position `source` is next, `source` windows have
  been drawn, so the coefficients of that position are those of the closed form.
  `Recurrence.stretch` is what any part of the loop does.
* `sweep_yields`, `apply_yields`: every buffer, also an empty one, is swept without a fault and
  left with the result of the recurrence; a sweep reports one refill for each further page of the
  coefficient buffer that it needs.
* `steppers_agree`: the form in which a step reads its coefficients makes no difference.
-/

namespace ExpandConvolute
namespace Convolution

open Edit (Yields)
open Windows (refills)

variable {σ : Type} {m : Nat}

/-- A position reads its first `width` coefficient bits and no others. -/
theorem Recurrence.position_congr (A : Alphabet σ) {width : Nat} {bits bits' : Nat → Bool}
    (h : ∀ a, a < width → bits a = bits' a) (x : Vector σ m) (i : Fin m) :
    position A width bits x i = position A width bits' x i := by
  rw [position_eq_gates, position_eq_gates]
  congr 2
  apply List.map_congr_left
  intro a ha
  exact h a (List.mem_range.mp ha)

namespace Recurrence

/-- The steps of `count` positions from `source` on, or of as many as there are. -/
def stretch (A : Alphabet σ) (width : Nat) (bits : Nat → Nat → Bool) (source count : Nat)
    (x : Vector σ m) : Vector σ m :=
  (((List.finRange m).drop source).take count).foldl
    (fun x i => position A width (bits i.val) x i) x

section Stretch

variable (A : Alphabet σ) (width : Nat) (bits : Nat → Nat → Bool) (x : Vector σ m)

theorem stretch_zero (source : Nat) : stretch A width bits source 0 x = x := rfl

theorem stretch_succ (i : Fin m) (count : Nat) :
    stretch A width bits i.val (count + 1) x =
      stretch A width bits (i.val + 1) count (position A width (bits i.val) x i) := by
  have hlt : i.val < (List.finRange m).length := by
    rw [List.length_finRange]
    exact i.isLt
  have hdrop : (List.finRange m).drop i.val = i :: (List.finRange m).drop (i.val + 1) := by
    rw [List.drop_eq_getElem_cons hlt, List.getElem_finRange]
    rfl
  rw [stretch, hdrop, List.take_succ_cons, List.foldl_cons]
  rfl

theorem sweep_eq_stretch : sweep A width bits x = stretch A width bits 0 m x := by
  have hall : ((List.finRange m).drop 0).take m = List.finRange m :=
    List.take_of_length_le (Nat.le_of_eq List.length_finRange)
  rw [stretch, hall]
  rfl

end Stretch
end Recurrence

theorem sweepFrom_yields (A : Alphabet σ) (stepper : Stepper) (hm : m < sizeLimit) (seed : Seed)
    (count : Nat) :
    ∀ (source : Nat) (w : Windows) (x : Vector σ m), source + count ≤ m → w.drawn = source →
      w.source = Keystream.ofSeed seed coefficientStream → (8 ≤ w.width → m + 8 ≤ sizeLimit) →
      Yields (sweepFrom A stepper (m - (w.width + 1)) count source w) (.ofVector x hm) ()
        (.ofVector
          (Recurrence.stretch A w.width (coefficient seed w.width) source count x) hm)
        (refills ((afterDraws Windows.next count w).page - w.page)) := by
  induction count with
  | zero =>
    intro source w x _ _ _ _
    rw [Recurrence.stretch_zero, afterDraws, Nat.sub_self]
    exact .pure _ _
  | succ count ih =>
    intro source w x hs hdrawn hsource hroom
    have hlt : source < m := by omega
    let i : Fin m := ⟨source, hlt⟩
    -- the plain boundary is used only where the window ends before the last symbol
    let B : Boundary := if source < m - (w.width + 1) then .plain else .wrapping
    have hfits : B.Fits m (i.val + (1 + w.width)) := by
      intro hB
      by_cases hmain : source < m - (w.width + 1)
      · show source + (1 + w.width) < m
        omega
      · simp only [B, if_neg hmain] at hB
        cases hB
    have hbits : Recurrence.position A w.width (Octets.value w.next.1).testBit x i =
        Recurrence.position A w.width (coefficient seed w.width source) x i := by
      apply Recurrence.position_congr
      intro a ha
      rw [w.testBit_next ha, hdrawn, hsource]
      rfl
    have hcounts : B.CountsOctets m source (w.width / 8) :=
      B.countsOctets_of_le source (Nat.zero_lt_of_lt hlt) fun h => hroom (by omega)
    have hstep := step_yields A hm B i w.next.1 x stepper hfits
      (Nat.le_of_eq w.length_next.symm) hcounts
    rw [hbits] at hstep
    have hrest := ih (source + 1) w.next.2
      (Recurrence.position A w.width (coefficient seed w.width source) x i) (by omega)
      (by rw [w.drawn_next, hdrawn]) (by rw [w.source_next, hsource])
      (by rw [w.width_next]; exact hroom)
    rw [w.width_next] at hrest
    rw [Recurrence.stretch_succ _ _ _ _ i, w.refills_afterDraws]
    exact (Yields.emit_all w.report _).bind (hstep.andThen hrest)

/-- The form in which a step reads its coefficients makes no difference to a sweep. -/
theorem sweepFrom_eq_bytewise (A : Alphabet σ) (stepper : Stepper) (main count : Nat) :
    ∀ (source : Nat) (w : Windows),
      sweepFrom A stepper main count source w = sweepFrom A .bytewise main count source w := by
  induction count with
  | zero =>
    intro source w
    rfl
  | succ count ih =>
    intro source w
    simp only [sweepFrom, ih, step_eq_bytewise A _ source stepper (Nat.le_of_eq w.length_next.symm)]
    rfl

section Whole

variable (C : Convolution) (A : Alphabet σ) (hm : m < sizeLimit)

/-- There is room for the convolution of a buffer of `size` cells: an octet that begins at any of
them ends at a number below `sizeLimit`. What is stored in memory always has room, and so has
whatever is convolved without octets. Without room are a few of the longest buffers of symbols that
take no space. -/
def HasRoom (size : Nat) : Prop := 8 ≤ C.width → size + 8 ≤ sizeLimit

theorem hasRoom_of_lt {size : Nat} (h : size < cellLimit) : C.HasRoom size := by
  intro _
  simp only [cellLimit, sizeLimit] at h ⊢
  omega

/-- A stepper that a sweep of `C` accepts. -/
def Accepts (stepper : Stepper) : Prop := ∀ width, stepper = .packed width → width = C.width

theorem accepts_stepper : C.Accepts C.stepper := by
  intro width h
  by_cases hw : C.width = 24
  · rw [stepper, if_pos hw] at h
    cases h
    exact hw.symm
  · rw [stepper, if_neg hw] at h
    cases h

/-- Once a stepper is accepted, a sweep is that of the windows of its seed. -/
theorem sweep_eq_sweepWith {stepper : Stepper} (hs : C.Accepts stepper) (seed : Seed) :
    C.sweep A stepper seed = C.sweepWith A stepper (.ofSeed seed C.width C.width_le) := by
  have hchecked : C.sweep A stepper seed = Edit.extent >>= fun size =>
      if size = 0 then pure () else C.sweepWith A stepper (.ofSeed seed C.width C.width_le) := by
    unfold sweep
    rw [Windows.ofSeed?_of_le seed C.width_le]
    cases stepper with
    | bytewise => rfl
    | packed width =>
      have hwidth : ¬ width ≠ C.width := not_not_intro (hs width rfl)
      simp only [if_neg hwidth]
      rfl
  rw [hchecked]
  funext s
  show (if s.buffer.size = 0 then _ else _ : Edit σ Unit) s = _
  split
  · rename_i hempty
    show _ = sweepFrom A stepper (s.buffer.size - (C.width + 1)) s.buffer.size 0 _ s
    rw [hempty]
    rfl
  · rfl

variable {C} in
theorem sweep_yields {stepper : Stepper} (hs : C.Accepts stepper) (hroom : C.HasRoom m)
    (seed : Seed) (x : Vector σ m) :
    Yields (C.sweep A stepper seed) (.ofVector x hm) ()
      (.ofVector (Recurrence.sweep A C.width (coefficient seed C.width) x) hm)
      (refills ((m - 1) / Windows.perPage C.width)) := by
  let w := Windows.ofSeed seed C.width C.width_le
  have hrun := sweepFrom_yields A stepper hm seed m 0 w x (Nat.le_of_eq (Nat.zero_add m)) rfl rfl
    hroom
  have hpages : (afterDraws Windows.next m w).page - w.page = (m - 1) / Windows.perPage C.width :=
    Windows.page_afterDraws seed C.width_le m
  rw [hpages, ← Recurrence.sweep_eq_stretch] at hrun
  have hextent := Yields.extent (Buffer.ofVector x hm)
  rw [Buffer.size_ofVector] at hextent
  rw [C.sweep_eq_sweepWith A hs seed]
  exact hextent.andThen hrun

theorem length_seeds (C : Convolution) (seed : Seed) :
    (C.seeds seed).length = if C.secondSweep then 2 else 1 := by
  rw [seeds]
  split
  · rfl
  · rfl

variable {C} in
theorem apply_yields (hroom : C.HasRoom m) (seed : Seed) (x : Vector σ m) :
    Yields (C.apply A seed) (.ofVector x hm) () (.ofVector (Recurrence.apply C A seed x) hm)
      (refills ((C.seeds seed).length * ((m - 1) / Windows.perPage C.width))) := by
  have hall : ∀ (seeds : List Seed) (x : Vector σ m),
      Yields (seeds.forM (C.sweep A C.stepper)) (.ofVector x hm) ()
        (.ofVector (seeds.foldl
          (fun x seed => Recurrence.sweep A C.width (coefficient seed C.width) x) x) hm)
        (refills (seeds.length * ((m - 1) / Windows.perPage C.width))) := by
    intro seeds
    induction seeds with
    | nil =>
      intro x
      rw [List.length_nil, Nat.zero_mul]
      exact .forM_nil _ _
    | cons seed seeds ih =>
      intro x
      rw [List.length_cons, Nat.succ_mul, Nat.add_comm, Windows.refills_add]
      exact .forM_cons (sweep_yields A hm C.accepts_stepper hroom seed x) (ih _)
  exact hall (C.seeds seed) x

end Whole

/-- Convolving a buffer with room never fails, and it is the recurrence, with the complement of the
seed in the second sweep if there is one. -/
theorem apply_eq_recurrence (C : Convolution) (A : Alphabet σ) (seed : Seed) (s : Session σ)
    (hroom : C.HasRoom s.buffer.size) :
    ∃ t, C.apply A seed s = .ok () t ∧
      t.buffer.cells =
        (let once := Recurrence.sweep A C.width (coefficient seed C.width) s.buffer.toVector
         if C.secondSweep then Recurrence.sweep A C.width (coefficient (~~~seed) C.width) once
         else once).toArray := by
  have hrun := apply_yields A s.buffer.size_lt hroom seed s.buffer.toVector s.log
  rw [Buffer.ofVector_toVector] at hrun
  refine ⟨_, hrun, ?_⟩
  rw [Buffer.cells_ofVector, Recurrence.apply, seeds]
  cases C.secondSweep with
  | true => rfl
  | false => rfl

/-- Five cells and windows of nine, so that each of them comes round to its own source. -/
theorem apply_eq_recurrence_at_word :
    let C : Convolution := ⟨9, true, by decide⟩
    let word : Buffer Bool := .ofVector #v[true, false, true, true, false] (by decide)
    C.HasRoom word.size ∧
      ∃ t, C.apply .bits 7#128 ⟨word, []⟩ = .ok () t ∧
        t.buffer.cells =
          (Recurrence.sweep .bits 9 (coefficient (~~~7#128) 9)
            (Recurrence.sweep .bits 9 (coefficient 7#128 9) word.toVector)).toArray := by
  intro C word
  have hroom : C.HasRoom word.size := C.hasRoom_of_lt (by decide)
  exact ⟨hroom, apply_eq_recurrence C .bits 7#128 ⟨word, []⟩ hroom⟩

/-! ## Steppers -/

/-- A sweep that loads the coefficients of a position as one number and one that reads them byte
by byte are the same edit. On a buffer with room they succeed and leave the same. Already their
single steps are the same edits, faults included, whenever there are enough coefficient bytes. -/
theorem steppers_agree (C : Convolution) (A : Alphabet σ) :
    (∀ seed : Seed, C.sweep A (.packed C.width) seed = C.sweep A .bytewise seed) ∧
    (∀ (seed : Seed) (x : Buffer σ), C.HasRoom x.size → ∃ y events,
      Yields (C.sweep A (.packed C.width) seed) x () y events ∧
      Yields (C.sweep A .bytewise seed) x () y events) ∧
    ∀ (B : Boundary) (source : Nat) (cs : List UInt8), spanOf C.width ≤ cs.length →
      packed A B C.width source cs = bytewise A B C.width source cs := by
  have hpacked : C.Accepts (.packed C.width) := by
    rintro _ ⟨⟩
    rfl
  have hbytewise : C.Accepts .bytewise := nofun
  have hsame : ∀ seed : Seed, C.sweep A (.packed C.width) seed = C.sweep A .bytewise seed := by
    intro seed
    rw [C.sweep_eq_sweepWith A hpacked, C.sweep_eq_sweepWith A hbytewise, sweepWith, sweepWith]
    apply bind_congr
    intro size
    exact sweepFrom_eq_bytewise A (.packed C.width) _ size 0 _
  refine ⟨hsame, ?_, ?_⟩
  · intro seed x hroom
    have hrun := sweep_yields A x.size_lt hbytewise hroom seed x.toVector
    rw [Buffer.ofVector_toVector] at hrun
    exact ⟨_, _, hsame seed ▸ hrun, hrun⟩
  · intro B source cs h
    exact packed_eq_bytewise A B source h

theorem steppers_agree_at_octets :
    let C : Convolution := ⟨29, true, by decide⟩
    let A := Alphabet.octets 3
    let word : Buffer (Vector UInt8 3) := .ofVector #v[#v[1, 2, 3], #v[4, 5, 6]] (by decide)
    C.HasRoom word.size ∧
      (∃ y events, Yields (C.sweep A (.packed 29) 5#128) word () y events ∧
        Yields (C.sweep A .bytewise 5#128) word () y events) ∧
      spanOf C.width ≤ [0xff, 0, 0x81, 0x1f, 7].length ∧
      packed A .wrapping C.width 4 [0xff, 0, 0x81, 0x1f, 7] =
        bytewise A .wrapping C.width 4 [0xff, 0, 0x81, 0x1f, 7] := by
  intro C A word
  obtain ⟨-, hsweeps, hsteps⟩ := steppers_agree C A
  have hroom : C.HasRoom word.size := C.hasRoom_of_lt (by decide)
  have hspan : spanOf C.width ≤ [0xff, 0, 0x81, 0x1f, 7].length := by decide
  exact ⟨hroom, hsweeps 5#128 word hroom, hspan, hsteps .wrapping 4 _ hspan⟩

end Convolution
end ExpandConvolute
