import ExpandConvolute.Proofs.Convolution.Position
import ExpandConvolute.Proofs.Session.Ensures

/-!
# ExpandConvolute.Proofs.Convolution.Bounds

When the step of one position is at fault, and what it does otherwise.

* `Boundary.reach` is where the target of a step has come to. A target that wraps around is always
  inside the buffer, and one that does not only grows. The last access of a step is to its source
  and to the cell that it closes, whatever the coefficient bits, so a step that succeeds had its
  whole window inside, and the end of each of its octets was a number (`bytewise_ensures`).
  `Position` shows that this is enough.
* `coefficientBit` numbers the bits of a byte string. A step depends on no bit beyond its width
  (`bytewise_congr`), although it may read a byte that holds such bits.
* `bytewise_exact`: the fault condition under either boundary, and the result.
-/

namespace ExpandConvolute
namespace Convolution

open Edit (Yields Ensures RunsExactlyIf)

variable {σ : Type}

/-- Where a position is after `d` cells from `source` on. -/
def Boundary.reach (B : Boundary) (size source d : Nat) : Nat :=
  match B with
  | wrapping => (source + d) % size
  | plain => source + d

theorem Boundary.reach_zero {B : Boundary} {size source : Nat} (h : source < size) :
    B.reach size source 0 = source := by
  cases B with
  | wrapping => exact Nat.mod_eq_of_lt h
  | plain => rfl

theorem Boundary.reduce_reach_succ (B : Boundary) (size source d : Nat) :
    B.reduce size (B.reach size source d + 1) = B.reach size source (d + 1) := by
  cases B with
  | plain => rfl
  | wrapping =>
    have hnext : (source + (d + 1)) % size = ((source + d) % size + 1) % size := by
      rw [Nat.mod_add_mod, Nat.add_assoc]
    show (if size ≤ (source + d) % size + 1 then (source + d) % size + 1 - size
      else (source + d) % size + 1) = (source + (d + 1)) % size
    rw [hnext]
    by_cases hsize : size ≤ (source + d) % size + 1
    · rw [if_pos hsize, Nat.mod_eq_sub_mod hsize]
      cases size with
      | zero => exact (Nat.mod_zero _).symm
      | succ k =>
        have hlt : (source + d) % (k + 1) < k + 1 := Nat.mod_lt _ k.succ_pos
        have hround : (source + d) % (k + 1) + 1 - (k + 1) = 0 := by omega
        rw [hround, Nat.zero_mod]
    · rw [if_neg hsize, Nat.mod_eq_of_lt (Nat.lt_of_not_le hsize)]

theorem Boundary.reduce_reach (B : Boundary) (size source d : Nat) :
    B.reduce size (B.reach size source d) = B.reach size source d := by
  cases B with
  | plain => rfl
  | wrapping =>
    cases size with
    | zero => rfl
    | succ k => exact if_neg (Nat.not_le_of_lt (Nat.mod_lt _ k.succ_pos))

/-- An octet that ends inside the buffer ends where its bits do, one by one. -/
theorem Boundary.reach_add {B : Boundary} {size source d e : Nat}
    (h : B.reach size source d + e < size) :
    B.reach size source (d + e) = B.reach size source d + e := by
  cases B with
  | plain => exact (Nat.add_assoc ..).symm
  | wrapping =>
    show (source + (d + e)) % size = _
    rw [← Nat.add_assoc, ← Nat.mod_add_mod]
    exact Nat.mod_eq_of_lt h

/-! ## What a success ensures

The lemmas about loops are about any target. Where it has come to at the end is known if it is known
where it has been at the beginning. -/

section Loops

variable (A : Alphabet σ) (B : Boundary) (n source : Nat)

theorem next_ensures (position : Nat) :
    Ensures (B.next n position : Edit σ Nat) n (· = B.reduce n (position + 1)) := by
  refine (Ensures.advance position 1).bind fun next hnext => ?_
  rw [hnext.1]
  exact Ensures.pure rfl

theorem addSymbol_ensures (target : Nat) :
    Ensures (addSymbol A target source) n (fun _ => True) := by
  refine (Ensures.read target).bind fun _ _ => ?_
  refine (Ensures.read source).bind fun _ _ => ?_
  exact (Ensures.write target _).mono fun _ _ => trivial

theorem close_ensures (target : Nat) :
    Ensures (close A target source) n (fun _ => target < n ∧ source < n) := by
  refine (Ensures.read target).bind fun _ ht => ?_
  refine (Ensures.read source).bind fun _ hs => ?_
  exact (Ensures.write target _).mono fun _ _ => ⟨ht, hs⟩

theorem walk_ensures (bits : List Bool) :
    ∀ target, Ensures (walk A B n source bits target) n (fun q =>
      ∀ d, target = B.reach n source d → q = B.reach n source (d + bits.length)) := by
  induction bits with
  | nil =>
    intro target
    exact Ensures.pure fun _ h => h
  | cons bit bits ih =>
    intro target
    have hrest : Ensures (B.next n target >>= fun target => walk A B n source bits target) n
        (fun q => ∀ d, target = B.reach n source d →
          q = B.reach n source (d + (bit :: bits).length)) := by
      refine (next_ensures B n target).bind fun next hnext => ?_
      refine (ih next).mono fun q hq d hd => ?_
      have hreach := hq (d + 1) (by rw [hnext, hd, B.reduce_reach_succ])
      rw [hreach, List.length_cons, Nat.add_assoc, Nat.add_comm 1]
    rw [walk]
    cases bit with
    | false => exact hrest
    | true => exact (addSymbol_ensures A n source target).bind fun _ _ => hrest

theorem burst_ensures (target : Nat) (bits : List Bool) :
    ∀ p, Ensures (burst A source target bits p) n (fun _ => True) := by
  induction bits with
  | nil =>
    intro p
    exact Ensures.pure trivial
  | cons bit bits ih =>
    intro p
    rw [burst]
    cases bit with
    | false => exact ih (p + 1)
    | true =>
      refine (Ensures.advance target p).bind fun place _ => ?_
      exact (addSymbol_ensures A n source place).bind fun _ _ => ih (p + 1)

theorem octetStep_ensures (target : Nat) (c : UInt8) :
    Ensures (octetStep A B source target c) n (fun q => B.Counts target ∧
      ∀ d, target = B.reach n source d → q = B.reach n source (d + 8)) := by
  refine Ensures.extent.bind fun size hsize => ?_
  subst hsize
  cases B with
  | plain =>
    refine (burst_ensures A size source target _ 0).bind fun _ _ => ?_
    refine (Ensures.advance target 8).mono fun q hq => ⟨nofun, fun d hd => ?_⟩
    rw [hq.1, hd]
    exact Nat.add_assoc ..
  | wrapping =>
    refine (Ensures.advance target 8).bind fun past hpast => ?_
    obtain ⟨rfl, hcount⟩ := hpast
    by_cases hfit : target + 8 < size
    · rw [if_pos hfit]
      refine (burst_ensures A size source target _ 0).bind fun _ _ => ?_
      refine Ensures.pure ⟨fun _ => hcount, fun d hd => ?_⟩
      subst hd
      exact (Boundary.reach_add hfit).symm
    · rw [if_neg hfit]
      refine (walk_ensures A .wrapping size source _ target).mono fun q hq => ?_
      rw [length_lowBits] at hq
      exact ⟨fun _ => hcount, hq⟩

theorem octetSteps_ensures (cs : List UInt8) :
    ∀ target, Ensures (octetSteps A B n source cs target) n (fun q =>
      ∀ d, target = B.reach n source d →
        q = B.reach n source (d + 8 * cs.length) ∧
        ∀ k, k < cs.length → B.Counts (B.reach n source (d + 8 * k))) := by
  induction cs with
  | nil =>
    intro target
    exact Ensures.pure fun _ h => ⟨h, nofun⟩
  | cons c cs ih =>
    intro target
    rw [octetSteps]
    refine (octetStep_ensures A B n source target c).bind fun next hnext => ?_
    refine (ih (B.reduce n next)).mono fun q hq d hd => ?_
    have hreach : B.reduce n next = B.reach n source (d + 8) := by
      rw [hnext.2 d hd, B.reduce_reach]
    obtain ⟨hq, hcounts⟩ := hq (d + 8) hreach
    constructor
    · rw [hq, List.length_cons, Nat.mul_succ, Nat.add_assoc, Nat.add_comm 8]
    · intro k hk
      cases k with
      | zero => exact hd ▸ hnext.1
      | succ k =>
        have hrest := hcounts k (Nat.lt_of_succ_lt_succ hk)
        rwa [Nat.add_assoc, Nat.add_comm 8, ← Nat.mul_succ] at hrest

/-- The whole octets of a step begin at the cell after its source. -/
theorem wholes_ensures (cs : List UInt8) :
    Ensures (octetSteps A B n source cs (B.reduce n (source + 1))) n (fun q => source < n →
      q = B.reach n source (1 + 8 * cs.length) ∧ B.CountsOctets n source cs.length) := by
  refine (octetSteps_ensures A B n source cs _).mono fun q hq hs => ?_
  have hone : B.reduce n (source + 1) = B.reach n source 1 := by
    rw [← B.reduce_reach_succ, Boundary.reach_zero hs]
  obtain ⟨hreach, hcounts⟩ := hq 1 hone
  refine ⟨hreach, fun k hk hB => ?_⟩
  subst hB
  rw [Nat.add_assoc]
  exact hcounts k hk rfl

end Loops

/-- A step at `source` finds all that it accesses: its coefficients, and its cells in a buffer of
`n`. The ends of its octets are numbers. -/
structure Boundary.Admits (B : Boundary) (n width source : Nat) (cs : List UInt8) : Prop where
  source_lt : source < n
  window_fits : B.Fits n (source + (1 + width))
  span_le : spanOf width ≤ cs.length
  counts : B.CountsOctets n source (width / 8)

theorem admits_wrapping_iff {n width source : Nat} {cs : List UInt8} :
    Boundary.wrapping.Admits n width source cs ↔
      source < n ∧ spanOf width ≤ cs.length ∧
        ∀ k, k < width / 8 → (source + 1 + 8 * k) % n + 8 < sizeLimit := by
  constructor
  · intro h
    exact ⟨h.source_lt, h.span_le, fun k hk => h.counts k hk rfl⟩
  · rintro ⟨hsource, hspan, hcounts⟩
    exact ⟨hsource, nofun, hspan, fun k hk _ => hcounts k hk⟩

theorem admits_plain_iff {n width source : Nat} {cs : List UInt8} :
    Boundary.plain.Admits n width source cs ↔
      source + 1 + width < n ∧ spanOf width ≤ cs.length := by
  constructor
  · intro h
    have := h.window_fits rfl
    exact ⟨by omega, h.span_le⟩
  · rintro ⟨hwindow, hspan⟩
    exact ⟨by omega, fun _ => by omega, hspan, nofun⟩

/-- A window that ends before the last cell leaves nothing to wrap around. -/
theorem admits_wrapping_of_plain {n width source : Nat} {cs : List UInt8} (hn : n < sizeLimit)
    (h : Boundary.plain.Admits n width source cs) : Boundary.wrapping.Admits n width source cs := by
  refine ⟨h.source_lt, nofun, h.span_le, fun k hk _ => ?_⟩
  have := h.window_fits rfl
  rw [Nat.mod_eq_of_lt (by omega)]
  omega

/-- Whatever has happened before, the last access of a step is to its target and to its source. -/
theorem close_admits (A : Alphabet σ) {B : Boundary} {n width source target : Nat}
    {cs : List UInt8} (hspan : spanOf width ≤ cs.length)
    (h : source < n → target = B.reach n source (1 + width) ∧
      B.CountsOctets n source (width / 8)) :
    Ensures (close A target source) n (fun _ => B.Admits n width source cs) := by
  refine (close_ensures A n source target).mono fun _ ⟨ht, hs⟩ => ?_
  obtain ⟨rfl, hcounts⟩ := h hs
  refine ⟨hs, ?_, hspan, hcounts⟩
  rintro rfl
  exact ht

theorem bytewise_ensures (A : Alphabet σ) (B : Boundary) (n width source : Nat) (cs : List UInt8) :
    Ensures (bytewise A B width source cs) n (fun _ => B.Admits n width source cs) := by
  have hw : 8 * (width / 8) + width % 8 = width := Nat.div_add_mod width 8
  refine Ensures.extent.bind fun size hsize => ?_
  subst hsize
  refine (next_ensures B size source).bind fun first hfirst => ?_
  subst hfirst
  refine Ensures.guard fun hwhole => ?_
  have hlength : (cs.take (width / 8)).length = width / 8 := by
    rw [List.length_take]
    omega
  refine (wholes_ensures A B size source (cs.take (width / 8))).bind fun next hwholes => ?_
  rw [hlength] at hwholes
  by_cases hr : width % 8 = 0
  · rw [if_pos hr]
    have hall : 8 * (width / 8) = width := by omega
    rw [hall] at hwholes
    exact close_admits A (by simp only [spanOf]; omega) hwholes
  · rw [if_neg hr]
    cases hlast : cs[width / 8]? with
    | none => exact Ensures.fault .outOfBounds
    | some last =>
      have hlt : width / 8 < cs.length := (List.getElem?_eq_some_iff.mp hlast).1
      refine (walk_ensures A B size source _ next).bind fun target htarget => ?_
      rw [length_lowBits] at htarget
      refine close_admits A (by simp only [spanOf]; omega) fun hs => ?_
      obtain ⟨hreach, hcounts⟩ := hwholes hs
      have hend := htarget _ hreach
      rw [Nat.add_assoc, hw] at hend
      exact ⟨hend, hcounts⟩

/-! ## Coefficient bits -/

/-- Bit `a` of a byte string: the bits of the first byte, lowest first, then those of the next. -/
def coefficientBit (cs : List UInt8) (a : Nat) : Bool := (cs[a / 8]?.getD 0).toNat.testBit (a % 8)

theorem testBit_value (cs : List UInt8) : (Octets.value cs).testBit = coefficientBit cs :=
  funext (Octets.testBit_value cs)

theorem coefficientBit_octet (cs : List UInt8) (k : Nat) {p : Nat} (hp : p < 8) :
    coefficientBit cs (8 * k + p) = (cs[k]?.getD 0).toNat.testBit p := by
  rw [coefficientBit, Nat.mul_add_div (by decide), Nat.div_eq_of_lt hp, Nat.add_zero,
    Nat.mul_add_mod, Nat.mod_eq_of_lt hp]

section Agree

variable {width : Nat} {cs cs' : List UInt8}
  (hbits : ∀ a, a < width → coefficientBit cs a = coefficientBit cs' a)

include hbits

theorem testBit_octet_agree {k p : Nat} (hp : p < 8) (h : 8 * k + p < width) :
    (cs[k]?.getD 0).toNat.testBit p = (cs'[k]?.getD 0).toNat.testBit p := by
  rw [← coefficientBit_octet cs k hp, ← coefficientBit_octet cs' k hp, hbits _ h]

theorem octet_agree {k : Nat} (h : k < width / 8) : cs[k]?.getD 0 = cs'[k]?.getD 0 := by
  apply UInt8.toNat_inj.mp
  apply Nat.eq_of_testBit_eq
  intro p
  by_cases hp : p < 8
  · exact testBit_octet_agree hbits hp (by omega)
  · have hpow : 2 ^ 8 ≤ 2 ^ p := Nat.pow_le_pow_right (by decide) (by omega)
    have hout : ∀ b : UInt8, b.toNat.testBit p = false := fun b =>
      Nat.testBit_lt_two_pow (Nat.lt_of_lt_of_le b.toNat_lt hpow)
    rw [hout, hout]

theorem take_agree (h : spanOf width ≤ cs.length) (h' : spanOf width ≤ cs'.length) :
    cs.take (width / 8) = cs'.take (width / 8) := by
  simp only [spanOf] at h h'
  apply List.ext_getElem
  · rw [List.length_take, List.length_take]
    omega
  · intro k hk hk'
    rw [List.length_take] at hk hk'
    have hoctet := octet_agree hbits (k := k) (by omega)
    rw [List.getElem?_eq_getElem (by omega), List.getElem?_eq_getElem (by omega)] at hoctet
    simpa using hoctet

/-- A step reads `width` bits of its coefficients and no others. -/
theorem bytewise_congr (A : Alphabet σ) (B : Boundary) (source : Nat)
    (h : spanOf width ≤ cs.length) (h' : spanOf width ≤ cs'.length) :
    bytewise A B width source cs = bytewise A B width source cs' := by
  have htake := take_agree hbits h h'
  simp only [spanOf] at h h'
  rw [bytewise, bytewise]
  apply bind_congr
  intro size
  apply bind_congr
  intro target
  show (if cs.length < width / 8 then _ else _) = if cs'.length < width / 8 then _ else _
  rw [if_neg (by omega), if_neg (by omega), htake]
  apply bind_congr
  intro target
  by_cases hr : width % 8 = 0
  · rw [if_pos hr, if_pos hr]
  · have hlt : width / 8 < cs.length := by omega
    have hlt' : width / 8 < cs'.length := by omega
    have hlast : lowBits (width % 8) cs[width / 8].toNat =
        lowBits (width % 8) cs'[width / 8].toNat := by
      apply List.map_congr_left
      intro p hp
      have hp : p < width % 8 := List.mem_range.mp hp
      have hbit := testBit_octet_agree hbits (k := width / 8) (p := p) (by omega) (by omega)
      rwa [List.getElem?_eq_getElem hlt, List.getElem?_eq_getElem hlt'] at hbit
    rw [if_neg hr, if_neg hr, List.getElem?_eq_getElem hlt, List.getElem?_eq_getElem hlt']
    show walk A B size source (lowBits _ _) _ >>= _ = walk A B size source (lowBits _ _) _ >>= _
    rw [hlast]

end Agree

/-! ## The step of one position -/

section Step

variable (A : Alphabet σ) (width source : Nat) (cs : List UInt8) (x : Buffer σ)

theorem bytewise_yields_position {B : Boundary} (i : Fin x.size)
    (h : B.Admits x.size width i.val cs) :
    Yields (bytewise A B width i.val cs) x ()
      (.ofVector (Recurrence.position A width (coefficientBit cs) x.toVector i) x.size_lt) [] := by
  have hrun := bytewise_yields A x.size_lt B i cs x.toVector h.window_fits h.span_le h.counts
  rw [Buffer.ofVector_toVector, testBit_value] at hrun
  exact hrun

theorem bytewise_runs (B : Boundary) :
    RunsExactlyIf (bytewise A B width source cs) x (B.Admits x.size width source cs) := by
  apply RunsExactlyIf.of_ensures
  · intro h
    exact ⟨_, _, _, bytewise_yields_position A width cs x ⟨source, h.source_lt⟩ h⟩
  · exact bytewise_ensures A B x.size width source cs

/-- A step under the wrapping boundary is at fault exactly if its source lies outside the buffer,
there are too few coefficient bytes, or the end of one of its octets is no number: no octet may begin
in the last eight cells below `sizeLimit`. In a buffer that does not reach so far, or without octets,
the last condition holds. Under the plain boundary the whole window has to lie inside, and then the
wrapping step succeeds as well. Whenever it does, a step makes the naive step, and only the first
`width` coefficient bits matter. -/
theorem bytewise_exact :
    RunsExactlyIf (bytewise A .wrapping width source cs) x
      (source < x.size ∧ spanOf width ≤ cs.length ∧
        ∀ k, k < width / 8 → (source + 1 + 8 * k) % x.size + 8 < sizeLimit) ∧
    ((8 ≤ width → x.size + 8 ≤ sizeLimit) →
      RunsExactlyIf (bytewise A .wrapping width source cs) x
        (source < x.size ∧ spanOf width ≤ cs.length)) ∧
    RunsExactlyIf (bytewise A .plain width source cs) x
      (source + 1 + width < x.size ∧ spanOf width ≤ cs.length) ∧
    (∀ i : Fin x.size, spanOf width ≤ cs.length →
      let y : Buffer σ :=
        .ofVector (Recurrence.position A width (coefficientBit cs) x.toVector i) x.size_lt
      ((∀ k, k < width / 8 → (i.val + 1 + 8 * k) % x.size + 8 < sizeLimit) →
        Yields (bytewise A .wrapping width i.val cs) x () y []) ∧
      (i.val + 1 + width < x.size →
        Yields (bytewise A .wrapping width i.val cs) x () y [] ∧
        Yields (bytewise A .plain width i.val cs) x () y [])) ∧
    ∀ cs' : List UInt8, spanOf width ≤ cs.length → spanOf width ≤ cs'.length →
      (∀ a, a < width → coefficientBit cs a = coefficientBit cs' a) →
      ∀ B, bytewise A B width source cs = bytewise A B width source cs' := by
  have hwrapping := (bytewise_runs A width source cs x .wrapping).congr admits_wrapping_iff
  refine ⟨hwrapping, ?_, ?_, ?_, ?_⟩
  · intro hroom
    refine hwrapping.congr ⟨fun h => ⟨h.1, h.2.1⟩, fun h => ⟨h.1, h.2, ?_⟩⟩
    have hcounts : Boundary.wrapping.CountsOctets x.size source (width / 8) :=
      Boundary.countsOctets_of_le _ source (Nat.zero_lt_of_lt h.1) fun hpos => hroom (by omega)
    exact fun k hk => hcounts k hk rfl
  · exact (bytewise_runs A width source cs x .plain).congr admits_plain_iff
  · intro i hc
    constructor
    · intro hcounts
      exact bytewise_yields_position A width cs x i (admits_wrapping_iff.mpr ⟨i.isLt, hc, hcounts⟩)
    · intro hfit
      have hplain := admits_plain_iff.mpr ⟨hfit, hc⟩
      exact ⟨bytewise_yields_position A width cs x i (admits_wrapping_of_plain x.size_lt hplain),
        bytewise_yields_position A width cs x i hplain⟩
  · intro cs' h h' hbits B
    exact bytewise_congr hbits A B source h h'

end Step

/-- In a buffer of three cells, a window of twelve wraps around four times and adds to its own
source. In one of sixteen cells it ends before the last symbol, and the plain step agrees. -/
theorem bytewise_exact_at_integers :
    let A := Alphabet.integers 8
    let short : Buffer (BitVec 8) := .ofVector #v[1, 2, 3] (by decide)
    let long : Buffer (BitVec 8) := .ofVector (Vector.replicate 16 1) (by decide)
    let y : Buffer (BitVec 8) :=
      .ofVector #v[1, 1, 1, 2, 1, 2, 1, 1, 2, 1, 2, 2, 2, 2, 2, 4] (by decide)
    let z : Buffer (BitVec 8) := .ofVector #v[152, 38, 48] (by decide)
    Yields (bytewise A .wrapping 12 2 [0xa5, 0xff]) short () z [] ∧
      Yields (bytewise A .wrapping 12 2 [0xa5, 0xff]) long () y [] ∧
      Yields (bytewise A .plain 12 2 [0xa5, 0xff]) long () y [] ∧
      ∀ B, bytewise A B 12 2 [0xa5, 0xff] = bytewise A B 12 2 [0xa5, 0x0f, 0x77] := by
  intro A short long y z
  obtain ⟨-, -, -, hshort, -⟩ := bytewise_exact A 12 2 [0xa5, 0xff] short
  obtain ⟨-, -, -, hlong, hbits⟩ := bytewise_exact A 12 2 [0xa5, 0xff] long
  have hthree : Buffer.ofVector (Recurrence.position A 12 (coefficientBit [0xa5, 0xff])
      short.toVector ⟨2, by decide⟩) short.size_lt = z := by
    decide
  have hsixteen : Buffer.ofVector (Recurrence.position A 12 (coefficientBit [0xa5, 0xff])
      long.toVector ⟨2, by decide⟩) long.size_lt = y := by
    decide
  have hwraps := (hshort ⟨2, by decide⟩ (by decide)).1 (by decide)
  obtain ⟨hwrapping, hplain⟩ := (hlong ⟨2, by decide⟩ (by decide)).2 (by decide)
  rw [hthree] at hwraps
  rw [hsixteen] at hwrapping hplain
  refine ⟨hwraps, hwrapping, hplain, ?_⟩
  exact hbits [0xa5, 0x0f, 0x77] (by decide) (by decide) (by decide)

/-- The last buffer there is, of symbols without bytes: the octet of the third last cell begins at the
last one, and its end is no number. -/
theorem bytewise_overflows_at_last_cell :
    let x : Buffer (Vector UInt8 0) := .replicate 0xffffffffffffffff #v[] (by decide)
    0xfffffffffffffffd < x.size ∧ spanOf 8 ≤ [0].length ∧
      ∀ log, bytewise (.octets 0) .wrapping 8 0xfffffffffffffffd [0] ⟨x, log⟩ =
        .error (.fault .overflow) ⟨x, log⟩ := by
  intro x
  refine ⟨by decide, by decide, ?_⟩
  intro log
  rfl

end Convolution
end ExpandConvolute
