import ExpandConvolute.Convolution.Step
import ExpandConvolute.Convolution.Windows

/-!
# ExpandConvolute.Convolution.Sweep

The convolution of a whole buffer. A sweep takes every position in increasing order and draws its
coefficients from the windows of a seed; the positions whose window ends before the last symbol
use the plain boundary, the others wrap around. `apply` makes a sweep for each of the
`seeds`: the seed of the code, and its complement if the convolution mixes twice.
-/

namespace ExpandConvolute

/-- A convolution: how many coefficient bits a position has, and whether there is a second
sweep. -/
structure Convolution where
  width : Nat
  secondSweep : Bool
  width_le : width ≤ Convolution.maxWidth

namespace Convolution

variable {σ : Type}

/-- The convolution of a given width, refused if that is more than 64. -/
def ofWidth (width : Nat) (secondSweep : Bool) : Except Refusal Convolution :=
  if h : width ≤ maxWidth then
    .ok ⟨width, secondSweep, h⟩
  else
    .error (.convolutionTooWide width)

inductive Stepper where
  | bytewise
  | packed (width : Nat)
deriving DecidableEq, Repr

def step (A : Alphabet σ) (stepper : Stepper) (B : Boundary) (width source : Nat)
    (coefficients : List UInt8) : Edit σ Unit :=
  match stepper with
  | .bytewise => bytewise A B width source coefficients
  | .packed _ => packed A B width source coefficients

/-- The steps of `count` positions from `source` on. The first `main` positions of the buffer
have a window that ends before the last symbol. -/
def sweepFrom (A : Alphabet σ) (stepper : Stepper) (main : Nat) :
    (count source : Nat) → Windows → Edit σ Unit
  | 0, _, _ => pure ()
  | count + 1, source, windows => do
    windows.report.forM Edit.emit
    let (coefficients, windows') := windows.next
    let boundary := if source < main then .plain else .wrapping
    step A stepper boundary windows.width source coefficients
    sweepFrom A stepper main count (source + 1) windows'

/-- A sweep over the buffer, with windows that are given. -/
def sweepWith (C : Convolution) (A : Alphabet σ) (stepper : Stepper) (windows : Windows) :
    Edit σ Unit := do
  let size ← Edit.extent
  sweepFrom A stepper (size - (C.width + 1)) size 0 windows

/-- One sweep over the buffer, with the windows of a seed. A packed sweep is refused if its width
is not that of the convolution. An empty buffer needs no windows. -/
def sweep (C : Convolution) (A : Alphabet σ) (stepper : Stepper) (seed : Seed) : Edit σ Unit := do
  match stepper with
  | .bytewise => pure ()
  | .packed width => if width ≠ C.width then Edit.refuse (.widthMismatch C.width width)
  if (← Edit.extent) = 0 then
    return
  let windows ← Edit.orRefuse (Windows.ofSeed? seed C.width)
  C.sweepWith A stepper windows

/-- The form of the step that a convolution uses by itself: the default width is packed. -/
def stepper (C : Convolution) : Stepper := if C.width = 24 then .packed 24 else .bytewise

/-- The seeds of the sweeps, in order: the seed itself, and its complement if the convolution
mixes twice. -/
def seeds (C : Convolution) (seed : Seed) : List Seed :=
  if C.secondSweep then [seed, ~~~seed] else [seed]

def apply (C : Convolution) (A : Alphabet σ) (seed : Seed) : Edit σ Unit :=
  (C.seeds seed).forM (C.sweep A C.stepper)

end Convolution
end ExpandConvolute
