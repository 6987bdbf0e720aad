import ExpandConvolute.Convolution.Sweep

/-!
# ExpandConvolute.Convolution.Recurrence

The convolution bit by bit, as a function on vectors of a fixed length. It is what `sweep` and
`apply` compute, without their two boundaries, their groups of eight bits and their buffer
of coefficients: every target is found by a remainder, and every coefficient by its position in
the keystream.

* `coefficient` is the closed form of the coefficient bits of a seed.
* `position`, `sweep` and `apply` are one position, one sweep and the whole convolution.
-/

namespace ExpandConvolute
namespace Convolution

/-- The keystream byte at which the window of position `i` begins. A page of the coefficient
buffer holds the beginnings of `bufferOctets + 1 - spanOf width` windows. -/
def windowStart (width i : Nat) : Nat :=
  let windows := bufferOctets + 1 - spanOf width
  bufferOctets * (i / windows) + i % windows

/-- Coefficient bit `a` of position `i`. -/
def coefficient (seed : Seed) (width i a : Nat) : Bool :=
  let octet := (Keystream.ofSeed seed coefficientStream).octet (windowStart width i + a / 8)
  octet.toNat.testBit (a % 8)

namespace Recurrence

variable {σ : Type} {m : Nat}

/-- The place `distance` cells after position `i`, where the first cell follows the last one. -/
def place (i : Fin m) (distance : Nat) : Fin m :=
  ⟨(i.val + distance) % m, Nat.mod_lt _ (Nat.zero_lt_of_lt i.isLt)⟩

/-- Adds the symbol at `i` to the one `1 + a` cells after it, if the bit is set. -/
def gate (A : Alphabet σ) (x : Vector σ m) (i : Fin m) (bit : Bool) (a : Nat) : Vector σ m :=
  let t := place i (1 + a)
  if bit then x.set t (A.add x[t] x[i]) else x

/-- Adds the symbol at `i` to the one `1 + width` cells after it and multiplies the sum by the
constant. -/
def closing (A : Alphabet σ) (width : Nat) (x : Vector σ m) (i : Fin m) : Vector σ m :=
  let t := place i (1 + width)
  x.set t (A.scale (A.add x[t] x[i]))

def position (A : Alphabet σ) (width : Nat) (bits : Nat → Bool) (x : Vector σ m) (i : Fin m) :
    Vector σ m :=
  closing A width ((List.range width).foldl (fun x a => gate A x i (bits a) a) x) i

/-- The steps of all positions in order; `bits i` are the coefficient bits of position `i`. -/
def sweep (A : Alphabet σ) (width : Nat) (bits : Nat → Nat → Bool) (x : Vector σ m) : Vector σ m :=
  (List.finRange m).foldl (fun x i => position A width (bits i.val) x i) x

def apply (C : Convolution) (A : Alphabet σ) (seed : Seed) (x : Vector σ m) : Vector σ m :=
  (C.seeds seed).foldl (fun x seed => sweep A C.width (coefficient seed C.width) x) x

end Recurrence
end Convolution
end ExpandConvolute
