import ExpandConvolute.Convolution.Sweep
import ExpandConvolute.Event
import ExpandConvolute.Expansion.Basic
import ExpandConvolute.Parameters.Basic

/-!
# ExpandConvolute.Code.Basic

A code is a record of parameters that can be used: its sizes fit together, its convolution is at
most 64 wide and its expansion has enough columns. `ofParameters` accepts exactly these records
and names the first condition that another one violates. The convolution and the expansion of a
code are those of its parameters.
-/

namespace ExpandConvolute

/-- Parameters that have been found usable. -/
structure Code where
  parameters : Parameters
  valid : parameters.check = .ok ()
  hasColumns : parameters.HasColumns

namespace Code

def ofParameters (P : Parameters) : Except Refusal Code :=
  match h : P.check with
  | .error r => .error r
  | .ok () =>
    if hc : P.HasColumns then
      .ok ⟨P, h, hc⟩
    else
      .error (tooFewColumns P.paritySize P.weight.toNat P.regular)

/-- The code with the given sizes, weight and width, and the default of everything else. A code
size of zero stands for twice the message size. -/
def ofSizes (messageSize codeSize weight width : UInt64) (systematic : Bool) :
    Except Failure Code :=
  match Parameters.ofSizes messageSize codeSize with
  | .error f => .error (.fault f)
  | .ok P =>
    match ofParameters { P with weight, width, systematic } with
    | .error r => .error (.refused r)
    | .ok code => .ok code

/-- What configuring a code reports: nothing unless it succeeds. -/
def report {ε : Type} : Except ε Code → List Event
  | .error _ => []
  | .ok code =>
    let P := code.parameters
    [.configured P.messageSize.toNat P.codeSize.toNat P.weight.toNat P.width.toNat P.systematic
      P.regular P.secondSweep]

abbrev messageSize (code : Code) : Nat := code.parameters.messageSize.toNat

abbrev codeSize (code : Code) : Nat := code.parameters.codeSize.toNat

abbrev parityStart (code : Code) : Nat := code.parameters.parityStart

abbrev paritySize (code : Code) : Nat := code.parameters.paritySize

def convolution (code : Code) : Convolution where
  width := code.parameters.width.toNat
  secondSweep := code.parameters.secondSweep
  width_le := ((Parameters.check_eq_ok_iff _).mp code.valid).2.2

/-- The expansion of a code, from its parity to its message. -/
def expansion (code : Code) : Expansion where
  messageSize := code.messageSize
  sourceSize := code.paritySize
  weight := code.parameters.weight.toNat
  regular := code.parameters.regular
  seed := code.parameters.seed
  sourceSize_lt := code.parameters.paritySize_lt
  enoughColumns := code.hasColumns

theorem messageSize_pos (code : Code) : 0 < code.messageSize :=
  ((Parameters.check_eq_ok_iff _).mp code.valid).1

theorem messageSize_le (code : Code) : code.messageSize ≤ code.codeSize :=
  ((Parameters.check_eq_ok_iff _).mp code.valid).2.1.1

theorem parityStart_le (code : Code) : code.parityStart ≤ code.codeSize := by
  have := code.messageSize_le
  simp only [parityStart, Parameters.parityStart]
  split <;> omega

theorem parityStart_add_paritySize (code : Code) :
    code.parityStart + code.paritySize = code.codeSize := by
  have : code.parameters.parityStart ≤ code.parameters.codeSize.toNat := code.parityStart_le
  simp only [parityStart, paritySize, Parameters.paritySize, codeSize]
  omega

end Code
end ExpandConvolute
