/-!
# ExpandConvolute.Keystream.ChaCha

The ChaCha block function with twenty rounds, a 64-bit block counter and a 64-bit stream number.
The state is sixteen 32-bit words: four constants, eight words of key, the counter and the stream
number, low word first. A block is the state after ten double rounds, added word by word to the
state before them.
-/

namespace ExpandConvolute
namespace ChaCha

abbrev State := Vector UInt32 16

abbrev Key := Vector UInt32 8

/-- `w` turned left by `count` bits, for `0 < count < 32`. -/
def rotateLeft (w : UInt32) (count : UInt32) : UInt32 :=
  (w <<< count) ||| (w >>> (32 - count))

/-- Mixes the words at four places of the state. -/
def quarterRound (s : State) (a b c d : Fin 16) : State :=
  let wa := s[a] + s[b]
  let wd := rotateLeft (s[d] ^^^ wa) 16
  let wc := s[c] + wd
  let wb := rotateLeft (s[b] ^^^ wc) 12
  let wa := wa + wb
  let wd := rotateLeft (wd ^^^ wa) 8
  let wc := wc + wd
  let wb := rotateLeft (wb ^^^ wc) 7
  (((s.set a wa).set b wb).set c wc).set d wd

/-- One round down the columns of the state and one down its diagonals. -/
def doubleRound (s : State) : State :=
  let s := quarterRound s 0 4 8 12
  let s := quarterRound s 1 5 9 13
  let s := quarterRound s 2 6 10 14
  let s := quarterRound s 3 7 11 15
  let s := quarterRound s 0 5 10 15
  let s := quarterRound s 1 6 11 12
  let s := quarterRound s 2 7 8 13
  quarterRound s 3 4 9 14

def doubleRounds : (count : Nat) → State → State
  | 0, s => s
  | count + 1, s => doubleRounds count (doubleRound s)

def start (key : Key) (stream counter : UInt64) : State :=
  #v[0x61707865, 0x3320646e, 0x79622d32, 0x6b206574,
    key[0], key[1], key[2], key[3], key[4], key[5], key[6], key[7],
    counter.toUInt32, (counter >>> 32).toUInt32,
    stream.toUInt32, (stream >>> 32).toUInt32]

def block (key : Key) (stream counter : UInt64) : State :=
  let s := start key stream counter
  Vector.zipWith (· + ·) (doubleRounds 10 s) s

end ChaCha
end ExpandConvolute
