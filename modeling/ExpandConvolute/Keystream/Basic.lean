import ExpandConvolute.Keystream.ChaCha

/-!
# ExpandConvolute.Keystream.Basic

Pseudorandom keystreams, addressed by position. A keystream is a key together with a stream
number; both are fixed by a 128-bit seed and the number of the consumer.

* `word` and `octet` give the 32-bit word and the byte at any position, straight from the block
  function.
* `words` and `octets` give a run of them and compute each block once; `getElem_words` and
  `getElem_octets` say that they are the same words and bytes.

Everything that draws from a keystream is stated against these positions, so no reader can skip
or repeat a word without its statement showing it.
-/

namespace ExpandConvolute

/-- A seed: 128 bits that fix a whole code. -/
abbrev Seed := BitVec 128

structure Keystream where
  key : ChaCha.Key
  stream : UInt64
deriving DecidableEq

namespace Keystream

/-- The keystream of a seed for one consumer. The key is the seed followed by its complement. -/
def ofSeed (seed : Seed) (stream : UInt64) : Keystream where
  key := Vector.ofFn fun i => ⟨(~~~seed ++ seed).extractLsb' (32 * i.val) 32⟩
  stream := stream

def block (k : Keystream) (b : Nat) : ChaCha.State := ChaCha.block k.key k.stream (UInt64.ofNat b)

def word (k : Keystream) (i : Nat) : UInt32 := (k.block (i / 16))[i % 16]

/-- Byte `i` of a word, least significant first. -/
def octetOfWord (w : UInt32) (i : Nat) : UInt8 := (w >>> (8 * UInt32.ofNat i)).toUInt8

/-- The byte at position `i`: the bytes of each word, least significant first. -/
def octet (k : Keystream) (i : Nat) : UInt8 := octetOfWord (k.word (i / 4)) (i % 4)

/-- The 64-bit word made of the words at `i` and `i + 1`, low one first. -/
def doubleWord (k : Keystream) (i : Nat) : Nat :=
  (k.word i).toNat + UInt32.size * (k.word (i + 1)).toNat

/-- The `count` words from position `first` on. -/
def words (k : Keystream) (first count : Nat) : Vector UInt32 count :=
  let blocks := Vector.ofFn fun b : Fin ((first % 16 + count + 15) / 16) =>
    k.block (first / 16 + b.val)
  Vector.ofFn fun i =>
    have : (first % 16 + i.val) / 16 < (first % 16 + count + 15) / 16 := by omega
    (blocks[(first % 16 + i.val) / 16])[(first % 16 + i.val) % 16]

/-- The `count` bytes from the beginning of the word at position `first` on. -/
def octets (k : Keystream) (first count : Nat) : Vector UInt8 count :=
  let words := k.words first ((count + 3) / 4)
  Vector.ofFn fun i => octetOfWord words[i.val / 4] (i.val % 4)

theorem getElem_words (k : Keystream) (first count i : Nat) (h : i < count) :
    (k.words first count)[i] = k.word (first + i) := by
  have hb : first / 16 + (first % 16 + i) / 16 = (first + i) / 16 := by omega
  simp [words, word, hb]

theorem getElem_octets (k : Keystream) (first count i : Nat) (h : i < count) :
    (k.octets first count)[i] = k.octet (4 * first + i) := by
  have hw : first + i / 4 = (4 * first + i) / 4 := by omega
  have hm : i % 4 = (4 * first + i) % 4 := by omega
  simp [octets, octet, getElem_words, hw, ← hm]

end Keystream
end ExpandConvolute
