import ExpandConvolute.Code.Encode

/-!
# ExpandConvolute.Code.Batch

Encoding many codewords with one code. Every codeword is a task of its own: it is encoded and cut
down to its message, and a failure is kept with the others. The tasks may be run in any order;
`run` takes the order as an argument. `encodeAll` runs them one after the other and stops
at the first failure.
-/

namespace ExpandConvolute

/-- Codewords on their way to messages. -/
structure Batch (σ : Type) where
  vectors : Array (Buffer σ)
  /-- The failures of tasks that have been run, oldest first. -/
  failures : List Failure := []
  log : List Event := []

namespace Batch

variable {σ : Type}

def task (code : Code) (A : Alphabet σ) (batch : Batch σ) (i : Nat) : Batch σ :=
  match batch.vectors[i]? with
  | none => batch
  | some codeword =>
    match code.encode A ⟨codeword, batch.log⟩ with
    | .ok _ s => ⟨batch.vectors.setIfInBounds i s.buffer, batch.failures, s.log⟩
    | .error e s => ⟨batch.vectors.setIfInBounds i s.buffer, batch.failures ++ [e], s.log⟩

def run (code : Code) (A : Alphabet σ) (order : List Nat) (batch : Batch σ) : Batch σ :=
  order.foldl (task code A) batch

/-- Runs the tasks of the given vectors until one fails. -/
def runUntilFailure (code : Code) (A : Alphabet σ) : List Nat → Batch σ → Batch σ
  | [], batch => batch
  | i :: order, batch =>
    let batch := task code A batch i
    if batch.failures.isEmpty then runUntilFailure code A order batch else batch

def result (batch : Batch σ) : Except Failure (Array (Buffer σ)) :=
  match batch.failures with
  | [] => .ok batch.vectors
  | e :: _ => .error e

end Batch

def Code.encodeAll {σ : Type} (code : Code) (A : Alphabet σ) (vectors : Array (Buffer σ)) :
    Batch σ :=
  Batch.runUntilFailure code A (List.range vectors.size) { vectors := vectors }

end ExpandConvolute
