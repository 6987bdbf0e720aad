import ExpandConvolute.Keystream.Basic

/-!
# ExpandConvolute.Keystream.Tape

Reading a keystream from front to back. A `Tape` is a keystream and the position of the next
word. Words are the unit: a request for bytes takes whole words and drops the bytes of the last
one that it does not need, and an empty request takes nothing.
-/

namespace ExpandConvolute

/-- A keystream and the position of the word to be read next. -/
structure Tape where
  source : Keystream
  position : Nat := 0

namespace Tape

def ofSeed (seed : Seed) (stream : UInt64) : Tape := ⟨Keystream.ofSeed seed stream, 0⟩

def skip (t : Tape) (count : Nat) : Tape := { t with position := t.position + count }

def next32 (t : Tape) : UInt32 × Tape := (t.source.word t.position, t.skip 1)

/-- Reads two words as one number, low word first. -/
def next64 (t : Tape) : Nat × Tape := (t.source.doubleWord t.position, t.skip 2)

def octets (t : Tape) (count : Nat) : Vector UInt8 count × Tape :=
  (t.source.octets t.position count, t.skip ((count + 3) / 4))

/-- The number whose digits in base `2^32` are the given words, least significant first. -/
def wordsValue : List UInt32 → Nat
  | [] => 0
  | w :: ws => w.toNat + UInt32.size * wordsValue ws

/-- Reads a number of `width` bits: as many words as it needs, low word first, cut to the low
`width` bits. -/
def bits (t : Tape) (width : Nat) : BitVec width × Tape :=
  let count := (width + 31) / 32
  (BitVec.ofNat width (wordsValue (t.source.words t.position count).toList), t.skip count)

end Tape
end ExpandConvolute
