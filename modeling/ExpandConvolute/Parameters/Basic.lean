import ExpandConvolute.Convolution.Windows
import ExpandConvolute.Expansion.Basic

/-!
# ExpandConvolute.Parameters.Basic

The parameters that two parties agree on to derive the same code. Any record of parameters can
be written down; `check` checks the relations between its sizes and gives the first one that
fails.

A codeword of a systematic code begins with the message itself. What follows, or the whole
codeword of any other code, is the parity; it begins at `parityStart` and has `paritySize` symbols.
-/

namespace ExpandConvolute

structure Parameters where
  messageSize : UInt64
  codeSize : UInt64
  /-- The number of parity symbols that are added up for a message symbol. -/
  weight : UInt64
  /-- The number of coefficient bits of a position of the convolution. -/
  width : UInt64
  /-- Codewords begin with the message. -/
  systematic : Bool
  /-- Half of the expansion is drawn from strata. -/
  regular : Bool
  /-- The convolution makes a second sweep. -/
  secondSweep : Bool
  seed : Seed
deriving DecidableEq, Repr

namespace Parameters

abbrev defaultWeight : UInt64 := 7

abbrev defaultWidth : UInt64 := 24

def defaultSeed : Seed := 9996754675674599#64 ++ 56756745976768754#64

/-- The parameters with the given sizes and the default of everything else. A code size of zero
stands for twice the message size. -/
def ofSizes (messageSize codeSize : UInt64) : Except Fault Parameters := do
  let codeSize ←
    if codeSize = 0 then
      UInt64.ofNat <$> mulSize 2 messageSize.toNat
    else
      pure codeSize
  return {
    messageSize, codeSize
    weight := defaultWeight
    width := defaultWidth
    systematic := true
    regular := true
    secondSweep := true
    seed := defaultSeed }

/-- The position at which the parity of a codeword begins. -/
def parityStart (P : Parameters) : Nat := if P.systematic then P.messageSize.toNat else 0

/-- The number of symbols of the parity, zero if the code is too short to have any. -/
def paritySize (P : Parameters) : Nat := P.codeSize.toNat - P.parityStart

abbrev HasMessage (P : Parameters) : Prop := 0 < P.messageSize.toNat

/-- The code holds the message, and a systematic code at least one symbol more. -/
abbrev HasParity (P : Parameters) : Prop :=
  P.messageSize.toNat ≤ P.codeSize.toNat ∧
    (P.systematic = true → P.messageSize.toNat ≠ P.codeSize.toNat)

/-- The coefficient bits of a position fit 64 bits. -/
abbrev Narrow (P : Parameters) : Prop := P.width.toNat ≤ Convolution.maxWidth

/-- The parity has enough symbols to be the columns of the expansion. -/
abbrev HasColumns (P : Parameters) : Prop :=
  EnoughColumns P.paritySize P.weight.toNat P.regular

/-- Checks the sizes and the width. The columns of the expansion are checked when it is made. -/
def check (P : Parameters) : Except Refusal Unit :=
  if ¬ P.HasMessage then
    .error .emptyMessage
  else if ¬ P.HasParity then
    .error (.codeTooShort P.messageSize.toNat P.codeSize.toNat)
  else if ¬ P.Narrow then
    .error (.convolutionTooWide P.width.toNat)
  else
    .ok ()

theorem check_eq_ok_iff (P : Parameters) :
    P.check = .ok () ↔ P.HasMessage ∧ P.HasParity ∧ P.Narrow := by
  unfold check
  by_cases hm : P.HasMessage
  · rw [if_neg (not_not_intro hm)]
    by_cases hp : P.HasParity
    · rw [if_neg (not_not_intro hp)]
      by_cases hn : P.Narrow
      · rw [if_neg (not_not_intro hn)]
        exact ⟨fun _ => ⟨hm, hp, hn⟩, fun _ => rfl⟩
      · rw [if_pos hn]
        exact ⟨nofun, fun h => absurd h.2.2 hn⟩
    · rw [if_pos hp]
      exact ⟨nofun, fun h => absurd h.2.1 hp⟩
  · rw [if_pos hm]
    exact ⟨nofun, fun h => absurd h.1 hm⟩

theorem paritySize_lt (P : Parameters) : P.paritySize < sizeLimit := by
  have := P.codeSize.toNat_lt
  simp only [paritySize, sizeLimit]
  omega

end Parameters
end ExpandConvolute
