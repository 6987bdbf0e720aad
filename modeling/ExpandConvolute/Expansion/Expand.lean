import ExpandConvolute.Alphabet.Basic
import ExpandConvolute.Expansion.Basic
import ExpandConvolute.Session.Edit

/-!
# ExpandConvolute.Expansion.Expand

Multiplying a vector of source symbols by the matrix of an expansion. The sums are built up in
the buffer, in the order in which sources are drawn: either on top of what the buffer holds, or
from zero.
-/

namespace ExpandConvolute
namespace Expansion

variable {σ : Type}

/-- What becomes of the previous contents of the buffer. -/
inductive Mode where
  /-- The sums are added to it. -/
  | add
  /-- It is replaced. -/
  | overwrite
deriving DecidableEq, Repr

def absorb (A : Alphabet σ) (input : Buffer σ) (pick : Pick) : Edit σ Unit := do
  let a ← Edit.read pick.row
  match input.get? pick.source with
  | none => Edit.fault .outOfBounds
  | some b => Edit.write pick.row (A.add a b)

def expand (E : Expansion) (A : Alphabet σ) (mode : Mode) (input : Buffer σ) : Edit σ Unit := do
  Edit.orRefuse (requireLength E.sourceSize input.size)
  Edit.orRefuse (requireLength E.messageSize (← Edit.extent))
  match mode with
  | .add => pure ()
  | .overwrite => Edit.change (·.fill A.zero)
  let picks ← Edit.orFault E.picks
  picks.forM (absorb A input)

end Expansion
end ExpandConvolute
