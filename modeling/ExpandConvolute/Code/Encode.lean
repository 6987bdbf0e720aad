import ExpandConvolute.Code.Basic
import ExpandConvolute.Expansion.Expand

/-!
# ExpandConvolute.Code.Encode

Encoding with a code. The dual encoder compresses a codeword into a message in two steps: the
parity is convolved in place (`convolve`), then every message symbol becomes the sum of the
parity symbols in its row of the expansion, on top of the message part of the codeword if the
code is systematic and of zero otherwise (`expand`).

* `convolve`, `encodeWithin` and `encode` edit a codeword; the last one leaves the
  message alone. `expandWithin` is what is left to do once a codeword has been convolved.
* `expandOnto` edits a message, `expand` makes one.
* `parts` cuts a systematic codeword into message and parity.

All of them but `expandWithin` check the lengths that they are given before they do anything else.
They rely on them where they cut a codeword: a cut that does not lie inside is a fault.
-/

namespace ExpandConvolute
namespace Code

variable {σ : Type}

/-- A message of zeros. -/
def blank (code : Code) (A : Alphabet σ) : Buffer σ :=
  .replicate code.messageSize A.zero code.parameters.messageSize.toNat_lt

def convolve (code : Code) (A : Alphabet σ) : Edit σ Unit := do
  Edit.orRefuse (requireLength code.codeSize (← Edit.extent))
  Edit.onSuffix code.parityStart (code.convolution.apply A code.parameters.seed)

/-- Adds the sums of a convolved codeword to the message in the buffer. -/
def expandOnto (code : Code) (A : Alphabet σ) (codeword : Buffer σ) : Edit σ Unit := do
  Edit.orRefuse (requireLength code.codeSize codeword.size)
  let (_, parity) ← Edit.orFault (codeword.cut code.parityStart)
  code.expansion.expand A .add parity

def expand (code : Code) (A : Alphabet σ) (codeword : Buffer σ) : Except Failure (Buffer σ) := do
  requireLength code.codeSize codeword.size
  let message ←
    if code.parameters.systematic then
      let (first, _) ← codeword.cut code.messageSize
      pure first
    else
      pure (code.blank A)
  Edit.onto message (code.expandOnto A codeword)

def parts (code : Code) (codeword : Buffer σ) : Except Failure (Buffer σ × Buffer σ) := do
  if code.parameters.systematic then
    requireLength code.codeSize codeword.size
    codeword.cut code.messageSize
  else
    throw (.refused .notSystematic)

/-- Leaves the message of the convolved codeword in its first symbols. The sums of a systematic code
are added to the message where it stands; those of any other are made aside and then written over
the beginning. -/
def expandWithin (code : Code) (A : Alphabet σ) : Edit σ Unit := do
  if code.parameters.systematic then
    let parity ← Edit.onSuffix code.messageSize Edit.contents
    Edit.onFirst code.messageSize (code.expansion.expand A .add parity)
  else
    let convolved ← Edit.contents
    let message ← Edit.aside (code.blank A) (code.expansion.expand A .overwrite convolved)
    Edit.onFirst message.size (Edit.change fun _ => message)

/-- Encodes a codeword: the message is left in its first symbols, and the convolved codeword in
the others. -/
def encodeWithin (code : Code) (A : Alphabet σ) : Edit σ Unit := do
  Edit.orRefuse (requireLength code.codeSize (← Edit.extent))
  Edit.emit (.encodeStarted (← Edit.extent))
  if code.parameters.systematic then
    Edit.onSuffix code.messageSize (code.convolution.apply A code.parameters.seed)
  else
    code.convolution.apply A code.parameters.seed
  code.expandWithin A

/-- Encodes a codeword and leaves nothing but its message. -/
def encode (code : Code) (A : Alphabet σ) : Edit σ Unit := do
  code.encodeWithin A
  Edit.change (·.take code.messageSize)

end Code
end ExpandConvolute
