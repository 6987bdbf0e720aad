import ExpandConvolute.Event
import ExpandConvolute.Failure
import ExpandConvolute.Session.Buffer

/-!
# ExpandConvolute.Session.Edit

Computations that change a buffer in place. An `Edit` reads and writes one buffer, reports
events, and either returns a value or fails; a failed edit leaves its buffer and its log as they
are at that moment, so that "nothing was written" is a property to be proved and not one that
the type gives away.

* `read`, `write`, `addSymbol` are the accesses to single cells; a position outside the buffer is a
  fault at the moment of the access.
* `onFirst` and `onSuffix` run an edit on one end of the buffer, after a checked cut; `aside` runs
  one on another buffer, and `onto` makes a buffer out of another one.
-/

namespace ExpandConvolute

/-- A buffer being edited, and the events reported so far, oldest first. -/
structure Session (σ : Type) where
  buffer : Buffer σ
  log : List Event := []

abbrev Edit (σ α : Type) := EStateM Failure (Session σ) α

namespace Edit

variable {σ α : Type}

@[inline] def fault (f : Fault) : Edit σ α := throw (.fault f)

@[inline] def refuse (r : Refusal) : Edit σ α := throw (.refused r)

@[inline] def orFault : Except Fault α → Edit σ α
  | .ok a => pure a
  | .error f => fault f

/-- The result of a computation that may refuse. -/
@[inline] def orRefuse : Except Refusal α → Edit σ α
  | .ok a => pure a
  | .error r => refuse r

def emit (e : Event) : Edit σ Unit := modify fun s => { s with log := s.log ++ [e] }

@[inline] def contents : Edit σ (Buffer σ) := fun s => .ok s.buffer s

@[inline] def extent : Edit σ Nat := fun s => .ok s.buffer.size s

@[inline] def read (i : Nat) : Edit σ σ := fun s =>
  if h : i < s.buffer.size then .ok (s.buffer.get i h) s else .error (.fault .outOfBounds) s

@[inline] def write (i : Nat) (a : σ) : Edit σ Unit := fun ⟨buffer, log⟩ =>
  if h : i < buffer.size then
    .ok () ⟨buffer.set i a h, log⟩
  else
    .error (.fault .outOfBounds) ⟨buffer, log⟩

@[inline] def change (f : Buffer σ → Buffer σ) : Edit σ Unit :=
  modify fun s => { s with buffer := f s.buffer }

/-- Moves a position on by `count` cells. -/
@[inline] def advance (position count : Nat) : Edit σ Nat := orFault (addSize position count)

/-- Runs an edit on a part of the buffer, as a buffer of its own, and writes what it leaves over the
cells from position `k` on. -/
def onPart (k : Nat) (part : Buffer σ) (edit : Edit σ α) : Edit σ α := fun s =>
  match edit { s with buffer := part } with
  | .ok a t => .ok a { t with buffer := s.buffer.overlay k t.buffer }
  | .error e t => .error e { t with buffer := s.buffer.overlay k t.buffer }

/-- Runs an edit on the cells from position `k` on. -/
def onSuffix (k : Nat) (edit : Edit σ α) : Edit σ α := do
  let (_, part) ← orFault ((← contents).cut k)
  onPart k part edit

/-- Runs an edit on the first `k` cells. -/
def onFirst (k : Nat) (edit : Edit σ α) : Edit σ α := do
  let (part, _) ← orFault ((← contents).cut k)
  onPart 0 part edit

/-- Runs an edit on another buffer, and gives what it leaves of it. -/
def aside (start : Buffer σ) (edit : Edit σ Unit) : Edit σ (Buffer σ) := fun s =>
  match edit { s with buffer := start } with
  | .ok () t => .ok t.buffer { t with buffer := s.buffer }
  | .error e t => .error e { t with buffer := s.buffer }

/-- What an edit makes of a buffer. -/
def onto (start : Buffer σ) (edit : Edit σ Unit) : Except Failure (Buffer σ) :=
  match edit { buffer := start } with
  | .ok () s => .ok s.buffer
  | .error e _ => .error e

end Edit
end ExpandConvolute
