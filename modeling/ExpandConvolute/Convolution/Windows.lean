import ExpandConvolute.Event
import ExpandConvolute.Failure
import ExpandConvolute.Keystream.Basic
import ExpandConvolute.Octets

/-!
# ExpandConvolute.Convolution.Windows

The coefficients of a convolution. Every position of a codeword has `width` coefficient bits,
read as a window of bytes from a keystream buffer of 4096 bytes. The cursor moves on by one byte
a position, so neighbouring windows overlap. When no whole window is left, the buffer is filled
with the next 4096 keystream bytes and the cursor starts over; the bytes behind the last window
are never the start of one.
-/

namespace ExpandConvolute
namespace Convolution

/-- The number of the keystream that coefficients are read from. -/
def coefficientStream : UInt64 := 0

/-- The widest convolution: the coefficient bits of a position fit 64 bits. -/
abbrev maxWidth : Nat := 64

abbrev wordOctets : Nat := 16

abbrev bufferWords : Nat := 256

abbrev bufferOctets : Nat := bufferWords * wordOctets

abbrev spanOf (width : Nat) : Nat := (width + 7) / 8

/-- Page `page` of a keystream: the bytes that fill the coefficient buffer for the time after
`page` refills. -/
def pageOf (source : Keystream) (page : Nat) : Vector UInt8 bufferOctets :=
  source.octets (bufferOctets / 4 * page) bufferOctets

/-- A coefficient buffer and the place of the next window in it. -/
structure Windows where
  source : Keystream
  width : Nat
  page : Nat
  cursor : Nat
  buffer : Vector UInt8 bufferOctets
  width_le : width ≤ maxWidth
  cursor_le : cursor + spanOf width ≤ bufferOctets + 1
  buffer_eq : buffer = pageOf source page

theorem span_le {width : Nat} (h : width ≤ maxWidth) : spanOf width ≤ bufferOctets := by
  have : maxWidth = 64 := rfl
  have : bufferOctets = 4096 := rfl
  simp only [spanOf]
  omega

namespace Windows

/-- The windows of a seed, from the first one on. -/
def ofSeed (seed : Seed) (width : Nat) (h : width ≤ maxWidth) : Windows where
  source := Keystream.ofSeed seed coefficientStream
  width := width
  page := 0
  cursor := 0
  buffer := pageOf (Keystream.ofSeed seed coefficientStream) 0
  width_le := h
  cursor_le := by
    have := span_le h
    omega
  buffer_eq := rfl

/-- The windows of a seed, refused if they are to hold more than 64 bits. -/
def ofSeed? (seed : Seed) (width : Nat) : Except Refusal Windows :=
  if h : width ≤ maxWidth then
    .ok (ofSeed seed width h)
  else
    .error (.convolutionTooWide width)

/-- A convolution is never too wide for windows. -/
theorem ofSeed?_of_le (seed : Seed) {width : Nat} (h : width ≤ maxWidth) :
    ofSeed? seed width = .ok (ofSeed seed width h) := dif_pos h

abbrev span (w : Windows) : Nat := spanOf w.width

abbrev Exhausted (w : Windows) : Prop := bufferOctets < w.cursor + w.span

/-- The buffer filled with the next page, and the cursor at its beginning. -/
def turnPage (w : Windows) : Windows :=
  { w with
    page := w.page + 1
    cursor := 0
    buffer := pageOf w.source (w.page + 1)
    cursor_le := by
      have := span_le w.width_le
      omega
    buffer_eq := rfl }

theorem not_exhausted_turnPage (w : Windows) : ¬ w.turnPage.Exhausted := by
  have := span_le w.width_le
  simp only [Exhausted, turnPage, span]
  omega

/-- What the next draw reports: that it had to fill the buffer. -/
def report (w : Windows) : List Event := if w.Exhausted then [.windowsRefilled] else []

/-- The window at the cursor, and the cursor moved on by one byte. -/
def take (w : Windows) (h : ¬ w.Exhausted) : List UInt8 × Windows :=
  (List.ofFn fun b : Fin w.span => w.buffer[w.cursor + b.val],
    { w with cursor := w.cursor + 1, cursor_le := by simp only [Exhausted, span] at h; omega })

def next (w : Windows) : List UInt8 × Windows :=
  if h : w.Exhausted then w.turnPage.take w.not_exhausted_turnPage else w.take h

/-- The coefficient bits of the next position as a number: bit `b` is coefficient `b`. -/
def nextNumber (w : Windows) : Nat × Windows :=
  let (window, w') := w.next
  (Octets.value window % (1 <<< w.width), w')

end Windows
end Convolution
end ExpandConvolute
