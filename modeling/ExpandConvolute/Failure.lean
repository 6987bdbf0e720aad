/-!
# ExpandConvolute.Failure

What can go wrong. A `Refusal` is a violated precondition that the library checks for and
reports; a `Fault` is a step that has no result, such as an index outside its buffer. The theory
of the library shows that an accepted code is never at fault.

A computation that may be refused, or at fault, is one that may fail.

Sizes, widths and positions are numbers below `2^64`; `addSize` and `mulSize` are the sum and the
product of two of them, at fault when the result is not one.
-/

namespace ExpandConvolute

inductive Refusal where
  | emptyMessage
  /-- The code is shorter than its message, or leaves no parity. -/
  | codeTooShort (messageSize codeSize : Nat)
  | convolutionTooWide (width : Nat)
  /-- A packed sweep of one width over a convolution of another. -/
  | widthMismatch (width packed : Nat)
  | domainTooSmall (domain strata : Nat)
  | lengthMismatch (expected actual : Nat)
  /-- An operation of systematic codes on a code that is not. -/
  | notSystematic
deriving DecidableEq, Repr

def Refusal.message : Refusal → String
  | emptyMessage => "Message size must be non zero"
  | codeTooShort messageSize codeSize =>
    "Code size " ++ Nat.repr codeSize ++ " is too short for message size " ++ Nat.repr messageSize
  | convolutionTooWide width => "Accumulator width " ++ Nat.repr width ++ " exceeds 64 bits"
  | widthMismatch width packed =>
    "Fixed accumulator width " ++ Nat.repr packed ++ " does not match width " ++ Nat.repr width
  | domainTooSmall domain strata =>
    "Expander domain of size " ++ Nat.repr domain ++ " cannot be split into " ++ Nat.repr strata ++
      " strata"
  | lengthMismatch expected actual =>
    "Invalid vector length " ++ Nat.repr actual ++ ", expected " ++ Nat.repr expected
  | notSystematic => "Operation requires a systematic code"

inductive Fault where
  | outOfBounds
  /-- A sum or product that is not below `2^64`. -/
  | overflow
  | emptyDomain
deriving DecidableEq, Repr

def Fault.message : Fault → String
  | outOfBounds => "index out of bounds"
  | overflow => "arithmetic overflow"
  | emptyDomain => "sampler domain must be non empty"

inductive Failure where
  | refused (refusal : Refusal)
  | fault (fault : Fault)
deriving DecidableEq, Repr

def Failure.message : Failure → String
  | refused r => r.message
  | fault f => f.message

instance : MonadLift (Except Refusal) (Except Failure) where
  monadLift
    | .ok a => .ok a
    | .error r => .error (.refused r)

instance : MonadLift (Except Fault) (Except Failure) where
  monadLift
    | .ok a => .ok a
    | .error f => .error (.fault f)

/-- The first number that is no size. -/
abbrev sizeLimit : Nat := 0x10000000000000000

def addSize (a b : Nat) : Except Fault Nat :=
  if a + b < sizeLimit then .ok (a + b) else .error .overflow

def mulSize (a b : Nat) : Except Fault Nat :=
  if a * b < sizeLimit then .ok (a * b) else .error .overflow

/-- Refuses a vector whose length is not the expected one. -/
def requireLength (expected actual : Nat) : Except Refusal Unit :=
  if expected = actual then .ok () else .error (.lengthMismatch expected actual)

end ExpandConvolute
