import ExpandConvolute.Failure
import ExpandConvolute.Keystream.Basic

/-!
# ExpandConvolute.Expansion.IndexSampler

An endless sequence of indices below a modulus. Indices are 64-bit words of a keystream reduced
by the modulus. They are prepared in pools of 256: a pool is reduced as a whole when it is
filled and handed out through a cursor, and the next pool is filled when a draw finds the
present one used up.
-/

namespace ExpandConvolute

abbrev poolSize : Nat := 256

/-- The number of the keystream that indices are read from. -/
def indexStream : UInt64 := 1

/-- Pool `page` of a keystream: 256 double words, reduced by the modulus. -/
def poolOf (source : Keystream) (modulus page : Nat) : Vector Nat poolSize :=
  let words := source.words (2 * poolSize * page) (2 * poolSize)
  Vector.ofFn fun i =>
    (words[2 * i.val].toNat + UInt32.size * words[2 * i.val + 1].toNat) % modulus

/-- A pool of indices and the place of the next one in it. -/
structure IndexSampler where
  source : Keystream
  modulus : Nat
  page : Nat
  cursor : Nat
  pool : Vector Nat poolSize
  modulus_pos : 0 < modulus
  cursor_le : cursor ≤ poolSize
  pool_eq : pool = poolOf source modulus page

namespace IndexSampler

/-- The sampler of a seed. There is no index to draw below zero. -/
def ofSeed (seed : Seed) (modulus : Nat) : Except Fault IndexSampler :=
  if h : 0 < modulus then
    .ok {
      source := Keystream.ofSeed seed indexStream
      modulus := modulus
      page := 0
      cursor := 0
      pool := poolOf (Keystream.ofSeed seed indexStream) modulus 0
      modulus_pos := h
      cursor_le := by omega
      pool_eq := rfl }
  else
    .error .emptyDomain

/-- The next pool, with the cursor at its beginning. -/
def turnPage (s : IndexSampler) : IndexSampler :=
  { s with
    page := s.page + 1
    cursor := 0
    pool := poolOf s.source s.modulus (s.page + 1)
    cursor_le := by omega
    pool_eq := rfl }

/-- The index at the cursor, and the cursor moved on. -/
def take (s : IndexSampler) (h : s.cursor < poolSize) : Nat × IndexSampler :=
  (s.pool[s.cursor], { s with cursor := s.cursor + 1, cursor_le := h })

def next (s : IndexSampler) : Nat × IndexSampler :=
  if h : s.cursor < poolSize then s.take h else s.turnPage.take (Nat.succ_pos _)

instance : Std.Stream IndexSampler Nat where
  next? s := some s.next

/-- Bounds on the number of indices still to come: at least the largest size, and no upper one. -/
def remaining (_ : IndexSampler) : Nat × Option Nat := (sizeLimit - 1, none)

end IndexSampler
end ExpandConvolute
