import ExpandConvolute.Convolution.Recurrence
import ExpandConvolute.Proofs.Convolution.Bits
import ExpandConvolute.Proofs.Session.Yields

/-!
# ExpandConvolute.Proofs.Convolution.Gates

The gated additions of one position, against the plain recurrence.

`Recurrence.gates A i a bits` performs one gate for each of the given bits, the first of them for
the cell `1 + a` after position `i`. All three loops of a step are this function:

* `walk_yields`: bit by bit, under either boundary;
* `burst_yields`: without looking at the end of the buffer;
* `octetStep_yields`: eight bits, whichever of its two paths runs.

The target of every loop is `Recurrence.place i d`, a remainder. Under the wrapping boundary the
loops keep it below the size of the buffer by one subtraction; under the plain one they do not
touch it and the window has to end inside the buffer (`Boundary.Fits`).

Octets need a little more. A wrapping octet looks for its end eight cells further on before it knows
whether the buffer reaches that far, so this has to be a position at all (`Boundary.Counts`). In a
buffer of `size + 8 ≤ sizeLimit` cells it always is.
-/

namespace ExpandConvolute
namespace Convolution

open Edit (Yields)
open Recurrence (place gate)

variable {σ : Type} {m : Nat}

/-- A position that a plain boundary may reach; a wrapping one may reach any. -/
def Boundary.Fits (B : Boundary) (size position : Nat) : Prop := B = .plain → position < size

theorem Boundary.Fits.mono {B : Boundary} {size p q : Nat} (h : B.Fits size q) (hpq : p ≤ q) :
    B.Fits size p := by
  intro hB
  have := h hB
  omega

/-- The end of an octet that begins at `position` is a number to compare with the end of the buffer.
Only the wrapping boundary compares them. -/
def Boundary.Counts (B : Boundary) (position : Nat) : Prop :=
  B = .wrapping → position + 8 < sizeLimit

/-- `Counts` for the first `count` octets of position `source`. -/
def Boundary.CountsOctets (B : Boundary) (size source count : Nat) : Prop :=
  ∀ k, k < count → B.Counts ((source + 1 + 8 * k) % size)

theorem Boundary.countsOctets_of_le (B : Boundary) {size count : Nat} (source : Nat)
    (hsize : 0 < size) (h : 0 < count → size + 8 ≤ sizeLimit) :
    B.CountsOctets size source count := by
  intro k hk _
  have hlt : (source + 1 + 8 * k) % size < size := Nat.mod_lt _ hsize
  have hroom := h (Nat.zero_lt_of_lt hk)
  omega

theorem Boundary.reduce_of_lt (B : Boundary) {size position : Nat} (h : position < size) :
    B.reduce size position = position := by
  cases B with
  | wrapping => exact if_neg (by omega)
  | plain => rfl

namespace Recurrence

theorem place_lt (i : Fin m) (d : Nat) : (place i d).val < m := (place i d).isLt

/-- Moving on by `e` cells within the buffer needs no remainder. -/
theorem place_add {i : Fin m} {d e : Nat} (h : (place i d).val + e < m) :
    (place i (d + e)).val = (place i d).val + e := by
  simp only [place] at h ⊢
  rw [← Nat.add_assoc, ← Nat.mod_add_mod, Nat.mod_eq_of_lt h]

/-- The target of gate `a + p`, from that of gate `a`. -/
theorem place_gate {i : Fin m} {a p : Nat} (h : (place i (1 + a)).val + p < m) :
    (place i (1 + (a + p))).val = (place i (1 + a)).val + p := by
  rw [← Nat.add_assoc]
  exact place_add h

theorem place_of_lt {i : Fin m} {d : Nat} (h : i.val + d < m) : (place i d).val = i.val + d :=
  Nat.mod_eq_of_lt h

theorem place_zero (i : Fin m) : (place i 0).val = i.val := place_of_lt i.isLt

theorem reduce_place (B : Boundary) (i : Fin m) (d : Nat) (hf : B.Fits m (i.val + (d + 1))) :
    B.reduce m ((place i d).val + 1) = (place i (d + 1)).val := by
  cases B with
  | plain =>
    have h : i.val + (d + 1) < m := hf rfl
    have hd : i.val + d < m := by omega
    rw [place_of_lt h, place_of_lt hd]
    rfl
  | wrapping =>
    have hlt := place_lt i d
    by_cases h : (place i d).val + 1 < m
    · rw [place_add h, Boundary.reduce_of_lt _ h]
    · -- the last cell is followed by the first one
      have hlast : (place i d).val + 1 = m := by omega
      have hzero : (place i (d + 1)).val = 0 := by
        simp only [place] at hlast ⊢
        rw [← Nat.add_assoc, ← Nat.mod_add_mod, hlast, Nat.mod_self]
      rw [hzero, hlast]
      simp [Boundary.reduce]

def gates (A : Alphabet σ) (i : Fin m) : (a : Nat) → List Bool → Vector σ m → Vector σ m
  | _, [], x => x
  | a, bit :: bits, x => gates A i (a + 1) bits (gate A x i bit a)

theorem gates_append (A : Alphabet σ) (i : Fin m) (a : Nat) (bits bits' : List Bool)
    (x : Vector σ m) :
    gates A i a (bits ++ bits') x = gates A i (a + bits.length) bits' (gates A i a bits x) := by
  induction bits generalizing a x with
  | nil => rfl
  | cons bit bits ih =>
    have hl : a + (bit :: bits).length = a + 1 + bits.length := by
      rw [List.length_cons]
      omega
    rw [List.cons_append, gates, gates, ih, hl]

theorem gates_range (A : Alphabet σ) (i : Fin m) (a : Nat) (bits : Nat → Bool) (count : Nat)
    (x : Vector σ m) :
    gates A i a ((List.range count).map bits) x =
      (List.range count).foldl (fun x p => gate A x i (bits p) (a + p)) x := by
  induction count with
  | zero => rfl
  | succ count ih =>
    rw [List.range_succ, List.foldl_append, List.map_append, gates_append, ih]
    simp [gates]

theorem position_eq_gates (A : Alphabet σ) (width : Nat) (bits : Nat → Bool) (x : Vector σ m)
    (i : Fin m) :
    position A width bits x i = closing A width (gates A i 0 ((List.range width).map bits) x) i := by
  simp only [position, gates_range, Nat.zero_add]

end Recurrence

open Recurrence (gates place_lt place_gate place_of_lt reduce_place)

/-! ## Single accesses -/

section Accesses

variable (A : Alphabet σ) (x : Vector σ m) (hm : m < sizeLimit) (i : Fin m)

include hm in
/-- A position can be moved on within a buffer, and to just behind it. -/
theorem advance_yields {position count : Nat} (h : position + count ≤ m) (y : Buffer σ) :
    Yields (Edit.advance position count) y (position + count) y [] :=
  .advance (Nat.lt_of_le_of_lt h hm) y

include hm in
theorem next_yields (B : Boundary) (d : Nat) (hf : B.Fits m (i.val + (d + 1))) (y : Buffer σ) :
    Yields (B.next m (place i d).val) y (place i (d + 1)).val y [] := by
  refine (advance_yields hm (place_lt i d) y).andThen ?_
  rw [reduce_place B i d hf]
  exact .pure _ y

theorem addSymbol_yields (a : Nat) :
    Yields (addSymbol A (place i (1 + a)).val i.val) (.ofVector x hm) ()
      (.ofVector (gate A x i true a) hm) [] := by
  have ht : (place i (1 + a)).val < (Buffer.ofVector x hm).size := by
    rw [Buffer.size_ofVector]; exact place_lt i _
  have hi : i.val < (Buffer.ofVector x hm).size := by rw [Buffer.size_ofVector]; exact i.isLt
  have hwrite := Yields.write ht (A.add (x.get (place i (1 + a))) (x.get i))
  rw [Buffer.set_ofVector] at hwrite
  refine (Yields.read ht).andThen ((Yields.read hi).andThen ?_)
  rw [Buffer.get_ofVector, Buffer.get_ofVector]
  exact hwrite

theorem close_yields (width : Nat) :
    Yields (close A (place i (1 + width)).val i.val) (.ofVector x hm) ()
      (.ofVector (Recurrence.closing A width x i) hm) [] := by
  have ht : (place i (1 + width)).val < (Buffer.ofVector x hm).size := by
    rw [Buffer.size_ofVector]; exact place_lt i _
  have hi : i.val < (Buffer.ofVector x hm).size := by rw [Buffer.size_ofVector]; exact i.isLt
  have hwrite := Yields.write ht (A.scale (A.add (x.get (place i (1 + width))) (x.get i)))
  rw [Buffer.set_ofVector] at hwrite
  refine (Yields.read ht).andThen ((Yields.read hi).andThen ?_)
  rw [Buffer.get_ofVector, Buffer.get_ofVector]
  exact hwrite

/-- A gate is an addition if its bit is set and nothing otherwise; `f` is what comes after it. -/
theorem gate_yields {α : Type} {f : Unit → Edit σ α} {b : α} {z : Buffer σ}
    {events : List Event} (bit : Bool) (a : Nat)
    (hf : Yields (f ()) (.ofVector (gate A x i bit a) hm) b z events) :
    Yields (if bit then addSymbol A (place i (1 + a)).val i.val >>= f else f ())
      (.ofVector x hm) b z events := by
  cases bit with
  | false => exact hf
  | true => exact (addSymbol_yields A x hm i a).andThen hf

end Accesses

/-! ## Loops -/

section Loops

variable (A : Alphabet σ) (hm : m < sizeLimit) (i : Fin m)

theorem walk_yields (B : Boundary) (bits : List Bool) :
    ∀ (a : Nat) (x : Vector σ m), B.Fits m (i.val + (1 + (a + bits.length))) →
      Yields (walk A B m i.val bits (place i (1 + a)).val) (.ofVector x hm)
        (place i (1 + (a + bits.length))).val (.ofVector (gates A i a bits x) hm) [] := by
  induction bits with
  | nil =>
    intro a x _
    exact .pure _ _
  | cons bit bits ih =>
    intro a x hf
    have hl : a + (bit :: bits).length = a + 1 + bits.length := by
      rw [List.length_cons]
      omega
    rw [hl] at hf ⊢
    have hnext : B.Fits m (i.val + (1 + a + 1)) := hf.mono (by omega)
    rw [walk]
    apply gate_yields
    refine (next_yields hm i B (1 + a) hnext _).andThen ?_
    exact ih (a + 1) (gate A x i bit a) hf

/-- The targets of a burst are counted from `place i (1 + a)`, the gates from position `i`. -/
theorem burst_yields (a : Nat) (bits : List Bool) :
    ∀ (p : Nat) (x : Vector σ m), (place i (1 + a)).val + p + bits.length ≤ m →
      Yields (burst A i.val (place i (1 + a)).val bits p) (.ofVector x hm) ()
        (.ofVector (gates A i (a + p) bits x) hm) [] := by
  induction bits with
  | nil =>
    intro p x _
    exact .pure _ _
  | cons bit bits ih =>
    intro p x hp
    rw [List.length_cons] at hp
    have hrest := ih (p + 1) (gate A x i bit (a + p)) (by omega)
    rw [burst, gates]
    cases bit with
    | false => exact hrest
    | true =>
      refine (advance_yields hm (by omega) _).andThen ?_
      rw [← place_gate (by omega)]
      exact (addSymbol_yields A x hm i _).andThen hrest

/-- A plain byte does not look at the end of the buffer, and may end just behind it. -/
theorem octetStep_plain_yields (a : Nat) (c : UInt8) (x : Vector σ m)
    (ha : (place i (1 + a)).val + 8 ≤ m) :
    Yields (octetStep A .plain i.val (place i (1 + a)).val c) (.ofVector x hm)
      ((place i (1 + a)).val + 8) (.ofVector (gates A i a (lowBits 8 c.toNat) x) hm) [] := by
  refine (Yields.extent _).andThen ?_
  refine (burst_yields A hm i a _ 0 x (by rw [length_lowBits]; exact ha)).andThen ?_
  exact advance_yields hm ha _

/-- The two paths of a wrapping byte and the one of a plain byte meet: they end at the place
eight cells further on. -/
theorem octetStep_yields (B : Boundary) (a : Nat) (c : UInt8) (x : Vector σ m)
    (hf : B.Fits m (i.val + (1 + (a + 8)))) (hn : B.Counts (place i (1 + a)).val) :
    Yields (octetStep A B i.val (place i (1 + a)).val c) (.ofVector x hm)
      (place i (1 + (a + 8))).val (.ofVector (gates A i a (lowBits 8 c.toNat) x) hm) [] := by
  cases B with
  | plain =>
    have hfit : i.val + (1 + (a + 8)) < m := hf rfl
    have hpast : (place i (1 + a)).val = i.val + (1 + a) := place_of_lt (by omega)
    rw [place_gate (by omega)]
    exact octetStep_plain_yields A hm i a c x (by omega)
  | wrapping =>
    refine (Yields.extent _).andThen ?_
    rw [Buffer.size_ofVector]
    refine (Yields.advance (hn rfl) _).andThen ?_
    by_cases hpast : (place i (1 + a)).val + 8 < m
    · rw [if_pos hpast, place_gate hpast]
      refine (burst_yields A hm i a _ 0 x (by rw [length_lowBits]; omega)).andThen ?_
      exact .pure _ _
    · rw [if_neg hpast]
      have hwalk := walk_yields A hm i .wrapping (lowBits 8 c.toNat) a x nofun
      rwa [length_lowBits] at hwalk

end Loops

end Convolution
end ExpandConvolute
