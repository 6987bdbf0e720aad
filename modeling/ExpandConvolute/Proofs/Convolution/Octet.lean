import ExpandConvolute.Proofs.Convolution.Bounds
import ExpandConvolute.Proofs.Convolution.Lossless

/-!
# ExpandConvolute.Proofs.Convolution.Octet

Eight coefficient bits at once, from any position and for any source.

`Recurrence.additions` is the naive run of single bits. A wrapping octet has two paths, one of which
does not look at the end of the buffer; they meet exactly where the octet ends with the last cell,
and in a buffer shorter than eight cells the other one goes round as often as it has to. To choose
between them it counts to its own end, which is no number if it begins in the last eight cells below
`sizeLimit`; single bits need no such count. A plain octet may end behind the last cell, and its
position is then not brought back to the first one.

* `walk_plain_yields`, `octetSteps_plain_yields`: loops that stay inside the buffer, wherever the
  source is. The wrapping ones are in `Gates` and `Position`.
* `octetStep_wraps`, `octetStep_inside`, `octetSteps_wrap`, `octetSteps_inside`: the octets of either
  boundary make the additions of their bits. `octetStep_runs` and `octetSteps_run` say when the
  wrapping ones can.
* `octetStep_exact`: one octet, and any number of octets against their single bits.
-/

namespace ExpandConvolute
namespace Convolution

open Edit (Yields RunsExactlyIf)

variable {σ : Type} {m : Nat}

namespace Recurrence

/-- Adds the symbol at `i` to the cells from `j` on, to one for each bit, if the bit is set. -/
def additions (A : Alphabet σ) (i j : Fin m) (bits : Nat → Bool) (count : Nat) (x : Vector σ m) :
    Vector σ m :=
  (List.range count).foldl (fun x p => if bits p then combine A.add (place j p) i x else x) x

theorem place_place (i : Fin m) (d e : Nat) : place (place i d) e = place i (d + e) := by
  apply Fin.ext
  show ((i.val + d) % m + e) % m = (i.val + (d + e)) % m
  rw [Nat.mod_add_mod, Nat.add_assoc]

theorem place_gate_mod (i : Fin m) (a d : Nat) :
    (place i (1 + (a + d))).val = ((place i (1 + a)).val + d) % m := by
  rw [← Nat.add_assoc, ← place_place]
  rfl

/-- Every cell is the target of some gate of every source. -/
theorem exists_place (i j : Fin m) : ∃ a, place i (1 + a) = j := by
  refine ⟨m - 1 - i.val + j.val, Fin.ext ?_⟩
  have hi := i.isLt
  have hround : i.val + (1 + (m - 1 - i.val + j.val)) = j.val + m := by omega
  show (i.val + (1 + (m - 1 - i.val + j.val))) % m = j.val
  rw [hround, Nat.add_mod_right, Nat.mod_eq_of_lt j.isLt]

theorem gates_eq_additions (A : Alphabet σ) (i : Fin m) (a : Nat) (bits : Nat → Bool) (count : Nat)
    (x : Vector σ m) :
    gates A i a ((List.range count).map bits) x = additions A i (place i (1 + a)) bits count x := by
  have hgate : ∀ (y : Vector σ m) (p : Nat), gate A y i (bits p) (a + p) =
      if bits p then combine A.add (place (place i (1 + a)) p) i y else y := by
    intro y p
    rw [place_place, Nat.add_assoc]
    cases bits p with
    | false => rfl
    | true => rfl
  simp only [gates_range, hgate, additions]

end Recurrence

open Recurrence (gates gates_append place place_lt place_gate place_gate_mod exists_place
  additions gates_eq_additions)

/-! ## Loops that stay inside

The source may lie anywhere, also behind its targets. Positions are counted from the first target, and
gates from the source. -/

section Plain

variable (A : Alphabet σ) (hm : m < sizeLimit) (i : Fin m) (a : Nat)

theorem walk_plain_yields (bits : List Bool) :
    ∀ (p : Nat) (x : Vector σ m), (place i (1 + a)).val + p + bits.length ≤ m →
      Yields (walk A .plain m i.val bits ((place i (1 + a)).val + p)) (.ofVector x hm)
        ((place i (1 + a)).val + p + bits.length) (.ofVector (gates A i (a + p) bits x) hm) [] := by
  induction bits with
  | nil =>
    intro p x _
    exact .pure _ _
  | cons bit bits ih =>
    intro p x hp
    rw [List.length_cons] at hp
    have hl : (place i (1 + a)).val + p + (bit :: bits).length =
        (place i (1 + a)).val + (p + 1) + bits.length := by
      rw [List.length_cons]
      omega
    have hplace := place_gate (i := i) (a := a) (p := p) (by omega)
    rw [walk, hl, ← hplace]
    apply gate_yields
    have hnext : ∀ y : Buffer σ, Yields (Boundary.plain.next m (place i (1 + (a + p))).val) y
        ((place i (1 + a)).val + (p + 1)) y [] := by
      intro y
      rw [hplace]
      exact (advance_yields hm (by omega) y).andThen (.pure _ y)
    exact (hnext _).andThen (ih (p + 1) _ (by omega))

theorem octetSteps_plain_yields (cs : List UInt8) :
    ∀ (p : Nat) (x : Vector σ m), (place i (1 + a)).val + p + 8 * cs.length ≤ m →
      Yields (octetSteps A .plain m i.val cs ((place i (1 + a)).val + p)) (.ofVector x hm)
        ((place i (1 + a)).val + p + 8 * cs.length)
        (.ofVector (gates A i (a + p) (lowBits (8 * cs.length) (Octets.value cs)) x) hm) [] := by
  induction cs with
  | nil =>
    intro p x _
    exact .pure _ _
  | cons c cs ih =>
    intro p x hp
    rw [List.length_cons] at hp
    have hl : (place i (1 + a)).val + p + 8 * (c :: cs).length =
        (place i (1 + a)).val + (p + 8) + 8 * cs.length := by
      rw [List.length_cons]
      omega
    have hb : 8 * (c :: cs).length = 8 + 8 * cs.length := by
      rw [List.length_cons]
      omega
    have hplace := place_gate (i := i) (a := a) (p := p) (by omega)
    have hstep := octetStep_plain_yields A hm i (a + p) c x (by omega)
    rw [hplace] at hstep
    rw [octetSteps, hl, hb, lowBits_value_cons, gates_append, length_lowBits]
    exact hstep.andThen (ih (p + 8) _ (by omega))

end Plain

/-! ## Octets and their bits -/

section Octets

variable (A : Alphabet σ) (x : Buffer σ) (i j : Fin x.size)

/-- The buffer after the naive run of `count` bits. -/
def added (bits : Nat → Bool) (count : Nat) : Buffer σ :=
  .ofVector (additions A i j bits count x.toVector) x.size_lt

/-- The octets of a run that begins at `place i (1 + a)` begin at places of gates. -/
theorem place_octet (a k : Nat) :
    (place i (1 + (a + 8 * k))).val = ((place i (1 + a)).val + 8 * k) % x.size :=
  place_gate_mod i a _

theorem octetStep_wraps (c : UInt8) (hcount : j.val + 8 < sizeLimit) :
    Yields (octetStep A .wrapping i.val j.val c) x ((j.val + 8) % x.size)
      (added A x i j c.toNat.testBit 8) [] := by
  obtain ⟨a, rfl⟩ := exists_place i j
  have hrun := octetStep_yields A x.size_lt i .wrapping a c x.toVector nofun fun _ => hcount
  rw [place_gate_mod, lowBits, gates_eq_additions, Buffer.ofVector_toVector] at hrun
  exact hrun

theorem octetStep_runs (c : UInt8) :
    RunsExactlyIf (octetStep A .wrapping i.val j.val c) x (j.val + 8 < sizeLimit) := by
  have hensures := octetStep_ensures A .wrapping x.size i.val j.val c
  refine .of_ensures (fun hcount => ?_) (hensures.mono fun _ h => h.1 rfl)
  exact ⟨_, _, _, octetStep_wraps A x i j c hcount⟩

theorem octetStep_inside (c : UInt8) (hfit : j.val + 8 ≤ x.size) :
    Yields (octetStep A .plain i.val j.val c) x (j.val + 8)
      (added A x i j c.toNat.testBit 8) [] := by
  obtain ⟨a, rfl⟩ := exists_place i j
  have hrun := octetStep_plain_yields A x.size_lt i a c x.toVector hfit
  rw [lowBits, gates_eq_additions, Buffer.ofVector_toVector] at hrun
  exact hrun

section Many

variable (cs : List UInt8)

theorem octetSteps_wrap
    (hcounted : ∀ k, k < cs.length → (j.val + 8 * k) % x.size + 8 < sizeLimit) :
    Yields (octetSteps A .wrapping x.size i.val cs j.val) x ((j.val + 8 * cs.length) % x.size)
      (added A x i j (coefficientBit cs) (8 * cs.length)) [] := by
  obtain ⟨a, rfl⟩ := exists_place i j
  have hcounts : ∀ k, k < cs.length →
      Boundary.wrapping.Counts (place i (1 + (a + 8 * k))).val := by
    intro k hk _
    rw [place_octet]
    exact hcounted k hk
  have hrun := octetSteps_yields A x.size_lt i .wrapping cs a x.toVector nofun hcounts
  rw [place_gate_mod, lowBits, testBit_value, gates_eq_additions, Buffer.ofVector_toVector] at hrun
  exact hrun

theorem octetSteps_run :
    RunsExactlyIf (octetSteps A .wrapping x.size i.val cs j.val) x
      (∀ k, k < cs.length → (j.val + 8 * k) % x.size + 8 < sizeLimit) := by
  refine .of_ensures (fun hcounted => ?_) ?_
  · exact ⟨_, _, _, octetSteps_wrap A x i j cs hcounted⟩
  · obtain ⟨a, rfl⟩ := exists_place i j
    refine (octetSteps_ensures A .wrapping x.size i.val cs _).mono fun _ h k hk => ?_
    rw [← place_octet, place, ← Nat.add_assoc 1]
    exact (h (1 + a) rfl).2 k hk rfl

/-- Single bits go round the end without a count of eight. -/
theorem walk_wraps :
    Yields (walk A .wrapping x.size i.val ((List.range (8 * cs.length)).map (coefficientBit cs))
        j.val) x ((j.val + 8 * cs.length) % x.size)
      (added A x i j (coefficientBit cs) (8 * cs.length)) [] := by
  obtain ⟨a, rfl⟩ := exists_place i j
  have hrun := walk_yields A x.size_lt i .wrapping
    ((List.range (8 * cs.length)).map (coefficientBit cs)) a x.toVector nofun
  rw [place_gate_mod, List.length_map, List.length_range, gates_eq_additions,
    Buffer.ofVector_toVector] at hrun
  exact hrun

theorem octetSteps_inside (hfit : j.val + 8 * cs.length ≤ x.size) :
    Yields (octetSteps A .plain x.size i.val cs j.val) x (j.val + 8 * cs.length)
      (added A x i j (coefficientBit cs) (8 * cs.length)) [] := by
  obtain ⟨a, rfl⟩ := exists_place i j
  have hrun := octetSteps_plain_yields A x.size_lt i a cs 0 x.toVector hfit
  rw [lowBits, testBit_value, gates_eq_additions, Buffer.ofVector_toVector] at hrun
  exact hrun

theorem walk_inside (hfit : j.val + 8 * cs.length ≤ x.size) :
    Yields (walk A .plain x.size i.val ((List.range (8 * cs.length)).map (coefficientBit cs))
        j.val) x (j.val + 8 * cs.length)
      (added A x i j (coefficientBit cs) (8 * cs.length)) [] := by
  obtain ⟨a, rfl⟩ := exists_place i j
  have hlength : ((List.range (8 * cs.length)).map (coefficientBit cs)).length = 8 * cs.length := by
    rw [List.length_map, List.length_range]
  have hrun := walk_plain_yields A x.size_lt i a
    ((List.range (8 * cs.length)).map (coefficientBit cs)) 0 x.toVector
    (by rw [hlength]; exact hfit)
  rw [hlength, gates_eq_additions, Buffer.ofVector_toVector] at hrun
  exact hrun

end Many

/-- A wrapping octet is at fault exactly if the number eight cells further on is no size. Otherwise it
ends there, round the end of the buffer if need be, and has made the additions of its eight bits,
whichever path it takes. A plain octet whose cells lie in the buffer makes the same additions. Any
number of octets runs exactly if each of them does, and then running them is running their bits one at
a time, which never fails. -/
theorem octetStep_exact :
    (∀ c : UInt8,
      let y := added A x i j c.toNat.testBit 8
      RunsExactlyIf (octetStep A .wrapping i.val j.val c) x (j.val + 8 < sizeLimit) ∧
      (j.val + 8 < sizeLimit →
        Yields (octetStep A .wrapping i.val j.val c) x ((j.val + 8) % x.size) y []) ∧
      (j.val + 8 ≤ x.size → Yields (octetStep A .plain i.val j.val c) x (j.val + 8) y [])) ∧
    ∀ cs : List UInt8,
      let count := 8 * cs.length
      let bits := (List.range count).map (coefficientBit cs)
      let y := added A x i j (coefficientBit cs) count
      let counted := ∀ k, k < cs.length → (j.val + 8 * k) % x.size + 8 < sizeLimit
      RunsExactlyIf (octetSteps A .wrapping x.size i.val cs j.val) x counted ∧
      (counted →
        Yields (octetSteps A .wrapping x.size i.val cs j.val) x ((j.val + count) % x.size) y []) ∧
      Yields (walk A .wrapping x.size i.val bits j.val) x ((j.val + count) % x.size) y [] ∧
      (j.val + count ≤ x.size →
        Yields (octetSteps A .plain x.size i.val cs j.val) x (j.val + count) y [] ∧
          Yields (walk A .plain x.size i.val bits j.val) x (j.val + count) y []) := by
  constructor
  · intro c y
    exact ⟨octetStep_runs A x i j c, octetStep_wraps A x i j c, octetStep_inside A x i j c⟩
  · intro cs count bits y counted
    refine ⟨octetSteps_run A x i j cs, octetSteps_wrap A x i j cs, walk_wraps A x i j cs, ?_⟩
    intro hfit
    exact ⟨octetSteps_inside A x i j cs hfit, walk_inside A x i j cs hfit⟩

end Octets

/-- In a buffer of three cells an octet goes round twice and adds to its own source. In one of sixteen
cells an octet that ends with the last cell has a next position under either boundary, the first cell
or none. -/
theorem octetStep_exact_at_integers :
    let A := Alphabet.integers 8
    let short : Buffer (BitVec 8) := .ofVector #v[1, 2, 3] (by decide)
    let long : Buffer (BitVec 8) := .ofVector (Vector.replicate 16 1) (by decide)
    let y : Buffer (BitVec 8) := .ofVector #v[9, 8, 5] (by decide)
    let z : Buffer (BitVec 8) :=
      .ofVector #v[1, 1, 1, 1, 1, 1, 1, 1, 2, 2, 2, 2, 2, 2, 2, 2] (by decide)
    let w : Buffer (BitVec 8) :=
      .ofVector #v[2, 2, 2, 2, 3, 3, 3, 3, 3, 3, 3, 3, 3, 3, 3, 3] (by decide)
    Yields (octetStep A .wrapping 1 2 0xa5) short 1 y [] ∧
      Yields (octetStep A .wrapping 3 8 0xff) long 0 z [] ∧
      Yields (octetStep A .plain 3 8 0xff) long 16 z [] ∧
      Yields (octetSteps A .plain 16 3 [0xff, 0xff] 0) long 16 w [] ∧
      Yields (walk A .plain 16 3 (List.replicate 16 true) 0) long 16 w [] := by
  intro A short long y z w
  obtain ⟨hshort, -⟩ := octetStep_exact A short ⟨1, by decide⟩ ⟨2, by decide⟩
  obtain ⟨hlong, -⟩ := octetStep_exact A long ⟨3, by decide⟩ ⟨8, by decide⟩
  obtain ⟨-, hboth⟩ := octetStep_exact A long ⟨3, by decide⟩ ⟨0, by decide⟩
  have hy : added A short ⟨1, by decide⟩ ⟨2, by decide⟩ (0xa5 : UInt8).toNat.testBit 8 = y := by
    decide
  have hz : added A long ⟨3, by decide⟩ ⟨8, by decide⟩ (0xff : UInt8).toNat.testBit 8 = z := by
    decide
  have hw : added A long ⟨3, by decide⟩ ⟨0, by decide⟩ (coefficientBit [0xff, 0xff]) 16 = w := by
    decide
  obtain ⟨-, hwraps, -⟩ := hshort 0xa5
  obtain ⟨-, hround, hplain⟩ := hlong 0xff
  obtain ⟨-, -, -, hinside⟩ := hboth [0xff, 0xff]
  obtain ⟨hsteps, hwalk⟩ := hinside (by decide)
  have hwraps := hwraps (by decide)
  have hround := hround (by decide)
  have hone : (2 + 8) % short.size = 1 := by decide
  have hnone : (8 + 8) % long.size = 0 := by decide
  rw [hy, hone] at hwraps
  rw [hz] at hround hplain
  rw [hnone] at hround
  refine ⟨hwraps, hround, hplain (by decide), ?_, ?_⟩
  · rw [← hw]
    exact hsteps
  · rw [← hw]
    exact hwalk

/-- The last buffer there is, of symbols without bytes: an octet from the last cell on has no end to
compare with that of the buffer. -/
theorem octetStep_overflows_at_last_cell :
    let x : Buffer (Vector UInt8 0) := .replicate 0xffffffffffffffff #v[] (by decide)
    0 < x.size ∧ 0xfffffffffffffffe < x.size ∧
      ∀ log, octetStep (.octets 0) .wrapping 0 0xfffffffffffffffe 0 ⟨x, log⟩ =
        .error (.fault .overflow) ⟨x, log⟩ := by
  intro x
  refine ⟨by decide, by decide, ?_⟩
  intro log
  rfl

end Convolution
end ExpandConvolute
