import ExpandConvolute.Alphabet.Basic
import ExpandConvolute.Octets
import ExpandConvolute.Session.Edit

/-!
# ExpandConvolute.Convolution.Step

One position of a convolution. The symbol at a source position `i` is added to those of the next
`width` positions whose coefficient bit is set, and then, whatever the bits, to position
`i + 1 + width`, whose symbol is finally multiplied by the constant of the alphabet. The source
is read anew for every addition: in a short buffer it lies in its own window.

* A `Boundary` says what happens at the end of the buffer: positions wrap around, or they are
  taken to stay inside.
* `walk` is the plain form, one coefficient bit at a time. `octetStep` takes eight bits at once
  and checks the end of the buffer only once if all eight targets lie before it.
* `bytewise` and `packed` are the two forms of a whole step: the first reads the coefficient
  bytes one by one, the second loads them as one number first.
-/

namespace ExpandConvolute
namespace Convolution

variable {σ : Type}

/-- What becomes of a position that reaches the end of the buffer. -/
inductive Boundary where
  /-- It continues at the beginning. -/
  | wrapping
  /-- It does not: the window is known to end before. -/
  | plain
deriving DecidableEq, Repr

namespace Boundary

/-- The place of a position that has gone at most one buffer length too far. -/
@[inline] def reduce (B : Boundary) (size position : Nat) : Nat :=
  match B with
  | wrapping => if size ≤ position then position - size else position
  | plain => position

/-- The position after `position`. -/
@[inline] def next (B : Boundary) (size position : Nat) : Edit σ Nat := do
  let position ← Edit.advance position 1
  return B.reduce size position

end Boundary

/-- Adds the symbol at `source` to the one at `target`. -/
def addSymbol (A : Alphabet σ) (target source : Nat) : Edit σ Unit := do
  let a ← Edit.read target
  let b ← Edit.read source
  Edit.write target (A.add a b)

/-- Adds the symbol at `source` to the one at `target` and multiplies the sum by the constant. -/
def close (A : Alphabet σ) (target source : Nat) : Edit σ Unit := do
  let a ← Edit.read target
  let b ← Edit.read source
  Edit.write target (A.scale (A.add a b))

/-- The `count` lowest bits of `n`, lowest first. -/
def lowBits (count n : Nat) : List Bool := (List.range count).map n.testBit

/-- Adds the symbol at `source` to those from `target` on whose bit is set, and gives the
position after the last one. -/
def walk (A : Alphabet σ) (B : Boundary) (size source : Nat) : List Bool → Nat → Edit σ Nat
  | [], target => pure target
  | bit :: bits, target => do
    if bit then addSymbol A target source
    let target ← B.next size target
    walk A B size source bits target

/-- Adds the symbol at `source` to those at `target + p`, `target + p + 1`, … whose bit is set.
None of these positions is compared with the end of the buffer. -/
def burst (A : Alphabet σ) (source target : Nat) : List Bool → (p : Nat) → Edit σ Unit
  | [], _ => pure ()
  | bit :: bits, p => do
    if bit then
      let place ← Edit.advance target p
      addSymbol A place source
    burst A source target bits (p + 1)

/-- Eight coefficient bits of the position `source`, for the targets from `target` on. Gives the
position after the last target. -/
def octetStep (A : Alphabet σ) (B : Boundary) (source target : Nat) (coefficients : UInt8) :
    Edit σ Nat := do
  let size ← Edit.extent
  let bits := lowBits 8 coefficients.toNat
  match B with
  | .plain =>
    burst A source target bits 0
    Edit.advance target 8
  | .wrapping =>
    let past ← Edit.advance target 8
    if past < size then
      burst A source target bits 0
      return past
    else
      walk A .wrapping size source bits target

/-- The steps of whole coefficient bytes, one after the other. -/
def octetSteps (A : Alphabet σ) (B : Boundary) (size source : Nat) : List UInt8 → Nat → Edit σ Nat
  | [], target => pure target
  | c :: cs, target => do
    let target ← octetStep A B source target c
    octetSteps A B size source cs (B.reduce size target)

/-- The steps of `count` coefficient bytes held in one number, lowest byte first. Gives the next
target and the bits that are left. -/
def packedSteps (A : Alphabet σ) (B : Boundary) (size source : Nat) :
    (count : Nat) → (bits target : Nat) → Edit σ (Nat × Nat)
  | 0, bits, target => pure (bits, target)
  | count + 1, bits, target => do
    let target ← octetStep A B source target (UInt8.ofNat bits)
    packedSteps A B size source count (bits / 256) (B.reduce size target)

/-- The step of position `source`, from its coefficient bytes one at a time. -/
def bytewise (A : Alphabet σ) (B : Boundary) (width source : Nat) (coefficients : List UInt8) :
    Edit σ Unit := do
  let size ← Edit.extent
  let whole := width / 8
  let rest := width % 8
  let target ← B.next size source
  if coefficients.length < whole then Edit.fault .outOfBounds
  let target ← octetSteps A B size source (coefficients.take whole) target
  let target ←
    if rest = 0 then
      pure target
    else
      match coefficients[whole]? with
      | none => Edit.fault .outOfBounds
      | some last => walk A B size source (lowBits rest last.toNat) target
  close A target source

/-- The step of position `source`, from its coefficient bytes loaded as one number. -/
def packed (A : Alphabet σ) (B : Boundary) (width source : Nat) (coefficients : List UInt8) :
    Edit σ Unit := do
  let size ← Edit.extent
  let count := (width + 7) / 8
  if coefficients.length < count then Edit.fault .outOfBounds
  let bits := Octets.value (coefficients.take count)
  let target ← B.next size source
  let (bits, target) ← packedSteps A B size source (width / 8) bits target
  let target ← walk A B size source (lowBits (width % 8) bits) target
  close A target source

end Convolution
end ExpandConvolute
