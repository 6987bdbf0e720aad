import ExpandConvolute.Expansion.IndexSampler

/-!
# ExpandConvolute.Expansion.Basic

The sparse matrix of an expansion. Every message position is the sum of `weight` source
positions. In a regular expansion half of them, rounded up, are drawn from disjoint strata of the
source positions, one from each; the others are drawn from all source positions, and so are all
of them in an irregular one.

Message positions are taken in groups of eight lanes. Within a group every stratum draws one
source for each lane, then every further source is drawn for each lane. The positions that are
left at the end form groups of one lane.

* `picks` lists all sources with their rows in the order in which they are drawn.
* `rows` collects them by row.
-/

namespace ExpandConvolute

/-- A regular expansion draws one in so many of its sources, rounded up, from strata. -/
abbrev stratifiedShare : Nat := 2

abbrev lanes : Nat := 8

/-- What is added to the seed, as `^^^`, for the sampler of the strata, so that it has a keystream
of its own. -/
def stratifiedTweak : Seed := 342342134#64 ++ 23421341#64

def strataOf (weight : Nat) (regular : Bool) : Nat :=
  if regular then (weight + (stratifiedShare - 1)) / stratifiedShare else 0

/-- There is a column for every stratum, and at least one if anything is drawn at all. -/
abbrev EnoughColumns (sourceSize weight : Nat) (regular : Bool) : Prop :=
  0 < weight → max (strataOf weight regular) 1 ≤ sourceSize

def tooFewColumns (sourceSize weight : Nat) (regular : Bool) : Refusal :=
  .domainTooSmall sourceSize (max (strataOf weight regular) 1)

/-- The shape of an expansion: a matrix of `messageSize` rows and `sourceSize` columns, every row
of which names `weight` columns to be added up. -/
structure Expansion where
  messageSize : Nat
  sourceSize : Nat
  weight : Nat
  regular : Bool
  seed : Seed
  sourceSize_lt : sourceSize < sizeLimit
  enoughColumns : EnoughColumns sourceSize weight regular

namespace Expansion

/-- The expansion with the given shape. It is refused if there are rows to fill and fewer columns
than strata. -/
def ofShape (messageSize sourceSize weight : UInt64) (regular : Bool) (seed : Seed) :
    Except Refusal Expansion :=
  if h : EnoughColumns sourceSize.toNat weight.toNat regular then
    .ok ⟨messageSize.toNat, sourceSize.toNat, weight.toNat, regular, seed,
      sourceSize.toNat_lt, h⟩
  else
    .error (tooFewColumns sourceSize.toNat weight.toNat regular)

/-- The number of sources of a row that are drawn from strata. -/
def strata (E : Expansion) : Nat := strataOf E.weight E.regular

/-- The number of columns of a stratum, zero if there are none. -/
def stratumWidth (E : Expansion) : Nat := if E.strata = 0 then 0 else E.sourceSize / E.strata

structure Pick where
  row : Nat
  source : Nat
deriving DecidableEq, Repr

/-- The samplers of an expansion: one within a stratum, if there are any, and one for all
columns. -/
structure Samplers where
  stratum : Option IndexSampler
  whole : IndexSampler

def samplers (E : Expansion) : Except Fault Samplers := do
  let stratum ←
    if 0 < E.strata then
      some <$> IndexSampler.ofSeed (E.seed ^^^ stratifiedTweak) E.stratumWidth
    else
      pure none
  let whole ← IndexSampler.ofSeed E.seed (max E.sourceSize 1)
  return ⟨stratum, whole⟩

/-- Draws one source for each of `count` rows from `row` on, moved by `offset`. -/
def pickLanes (offset : Nat) :
    (count row : Nat) → IndexSampler → Array Pick → Except Fault (IndexSampler × Array Pick)
  | 0, _, sampler, picks => .ok (sampler, picks)
  | count + 1, row, sampler, picks => do
    let (index, sampler) := sampler.next
    let source ← addSize index offset
    pickLanes offset count (row + 1) sampler (picks.push ⟨row, source⟩)

/-- Draws from `count` strata of width `width`, from stratum `s` on, for a group of rows. -/
def pickStrata (width group row : Nat) :
    (count s : Nat) → IndexSampler → Array Pick → Except Fault (IndexSampler × Array Pick)
  | 0, _, sampler, picks => .ok (sampler, picks)
  | count + 1, s, sampler, picks => do
    let offset ← mulSize width s
    let (sampler, picks) ← pickLanes offset group row sampler picks
    pickStrata width group row count (s + 1) sampler picks

/-- Draws `count` times from all columns, for a group of rows. -/
def pickWhole (group row : Nat) :
    (count : Nat) → IndexSampler → Array Pick → Except Fault (IndexSampler × Array Pick)
  | 0, sampler, picks => .ok (sampler, picks)
  | count + 1, sampler, picks => do
    let (sampler, picks) ← pickLanes 0 group row sampler picks
    pickWhole group row count sampler picks

def pickGroup (E : Expansion) (group row : Nat) (samplers : Samplers) (picks : Array Pick) :
    Except Fault (Samplers × Array Pick) := do
  let (stratum, picks) ←
    match samplers.stratum with
    | none => pure (none, picks)
    | some sampler => do
      let (sampler, picks) ← pickStrata E.stratumWidth group row E.strata 0 sampler picks
      pure (some sampler, picks)
  let (whole, picks) ← pickWhole group row (E.weight - E.strata) samplers.whole picks
  return (⟨stratum, whole⟩, picks)

def pickGroups (E : Expansion) (group : Nat) :
    (count row : Nat) → Samplers → Array Pick → Except Fault (Samplers × Array Pick)
  | 0, _, samplers, picks => .ok (samplers, picks)
  | count + 1, row, samplers, picks => do
    let (samplers, picks) ← E.pickGroup group row samplers picks
    pickGroups E group count (row + group) samplers picks

/-- All sources with their rows, drawn from samplers that are given. -/
def picksFrom (E : Expansion) (samplers : Samplers) : Except Fault (Array Pick) := do
  let grouped := E.messageSize / lanes
  let (samplers, picks) ← E.pickGroups lanes grouped 0 samplers #[]
  let (_, picks) ← E.pickGroups 1 (E.messageSize % lanes) (grouped * lanes) samplers picks
  return picks

def picks (E : Expansion) : Except Fault (Array Pick) := do
  let samplers ← E.samplers
  E.picksFrom samplers

/-- The sources of every row. Memory is left out: no room is set aside for rows of `weight` sources
before they are drawn. -/
def rows (E : Expansion) : Except Fault (Array (Array Nat)) := do
  let picks ← E.picks
  return picks.foldl (fun rows pick => rows.modify pick.row (·.push pick.source))
    (Array.replicate E.messageSize #[])

end Expansion
end ExpandConvolute
