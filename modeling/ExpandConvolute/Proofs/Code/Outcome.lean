import ExpandConvolute.Code.Encode
import ExpandConvolute.Proofs.Convolution.Image
import ExpandConvolute.Proofs.Expansion.Sums

/-!
# ExpandConvolute.Proofs.Code.Outcome

What the operations of a code come to, as functions.

* `convolved` and `expanded` are the two halves of the dual encoder; `encoded` is the second one
  after the first.
* `convolve_yields`, `expand_onto_yields`, `expand_ok`, `encode_within_yields` and `encode_yields`:
  on codewords of the right length every operation succeeds, if there is room for its sweeps, and
  this is what it leaves.
* `convolved_map`, `expanded_map` and `encoded_map`: all three commute with morphisms of alphabets.
-/

namespace ExpandConvolute
namespace Code

open Edit (Yields)

variable {σ τ : Type}

/-- The refills that convolving reports. -/
def refills (code : Code) : List Event :=
  Convolution.Windows.refills ((code.convolution.seeds code.parameters.seed).length *
    ((code.paritySize - 1) / Convolution.Windows.perPage code.convolution.width))

/-- The codeword with its parity convolved. -/
def convolved (code : Code) (A : Alphabet σ) (x : Buffer σ) : Buffer σ :=
  x.overlay code.parityStart
    (code.convolution.image A code.parameters.seed (x.drop code.parityStart))

/-- What the sums of the parity are added to. -/
def expansionStart (code : Code) (A : Alphabet σ) (x : Buffer σ) : Buffer σ :=
  if code.parameters.systematic then x.take code.messageSize else code.blank A

/-- The message of a convolved codeword. -/
def expanded (code : Code) (A : Alphabet σ) (x : Buffer σ) : Buffer σ :=
  code.expansion.sums A (x.drop code.parityStart) (code.expansionStart A x)

/-- The message of a codeword. -/
def encoded (code : Code) (A : Alphabet σ) (x : Buffer σ) : Buffer σ :=
  code.expanded A (code.convolved A x)

/-- There is room for the convolution of the parity. -/
def HasRoom (code : Code) : Prop := code.convolution.HasRoom code.paritySize

theorem hasRoom_of_lt {code : Code} (h : code.codeSize < cellLimit) : code.HasRoom := by
  have := code.parityStart_add_paritySize
  exact code.convolution.hasRoom_of_lt (by omega)

theorem parityStart_of_systematic {code : Code} (hs : code.parameters.systematic = true) :
    code.parityStart = code.messageSize := if_pos hs

section Sizes

variable (code : Code) (A : Alphabet σ) {x : Buffer σ}

@[simp] theorem size_blank : (code.blank A).size = code.messageSize := Buffer.size_replicate ..

theorem cells_blank : (code.blank A).cells = Array.replicate code.messageSize A.zero :=
  Buffer.cells_replicate ..

@[simp] theorem size_convolved (x : Buffer σ) : (code.convolved A x).size = x.size :=
  Buffer.size_overlay ..

theorem messageSize_le_size (hx : x.size = code.codeSize) : code.messageSize ≤ x.size := by
  rw [hx]
  exact code.messageSize_le

theorem parityStart_le_size (hx : x.size = code.codeSize) : code.parityStart ≤ x.size := by
  rw [hx]
  exact code.parityStart_le

theorem fill_blank : (code.blank A).fill A.zero = code.blank A := by
  apply Buffer.ext_cells
  rw [Buffer.cells_fill, cells_blank, size_blank]

theorem size_drop_parity (hx : x.size = code.codeSize) :
    (x.drop code.parityStart).size = code.paritySize := by
  rw [Buffer.size_drop, hx, ← code.parityStart_add_paritySize]
  exact Nat.add_sub_cancel_left ..

theorem size_take_message (hx : x.size = code.codeSize) :
    (x.take code.messageSize).size = code.messageSize := by
  rw [Buffer.size_take, hx]
  exact Nat.min_eq_left code.messageSize_le

theorem size_expansionStart (hx : x.size = code.codeSize) :
    (code.expansionStart A x).size = code.messageSize := by
  rw [expansionStart]
  split
  · exact code.size_take_message hx
  · exact code.size_blank A

theorem size_expanded (hx : x.size = code.codeSize) :
    (code.expanded A x).size = code.messageSize := by
  rw [expanded, Expansion.size_sums]
  exact code.size_expansionStart A hx

theorem size_encoded (hx : x.size = code.codeSize) :
    (code.encoded A x).size = code.messageSize :=
  code.size_expanded A (by rw [size_convolved, hx])

theorem size_encoded_le (hx : x.size = code.codeSize) :
    (code.encoded A x).size ≤ (code.convolved A x).size := by
  rw [code.size_encoded A hx, size_convolved]
  exact code.messageSize_le_size hx

end Sizes

section Operations

variable (code : Code) (A : Alphabet σ) {x : Buffer σ} (hx : x.size = code.codeSize)

section Convolve

variable (hroom : code.HasRoom)

include hx hroom

theorem apply_parity_yields :
    Yields (code.convolution.apply A code.parameters.seed) (x.drop code.parityStart) ()
      (code.convolution.image A code.parameters.seed (x.drop code.parityStart)) code.refills := by
  have hsize := code.size_drop_parity hx
  have hparity : code.convolution.HasRoom (x.drop code.parityStart).size := by
    rw [hsize]
    exact hroom
  have h := Convolution.apply_yields_image A code.parameters.seed hparity
  rw [hsize] at h
  exact h

theorem convolve_parity_yields :
    Yields (Edit.onSuffix code.parityStart (code.convolution.apply A code.parameters.seed)) x ()
      (code.convolved A x) code.refills :=
  .on_suffix (code.parityStart_le_size hx) (code.apply_parity_yields A hx hroom)

theorem convolve_yields : Yields (code.convolve A) x () (code.convolved A x) code.refills := by
  refine (Yields.extent x).andThen ?_
  refine (Yields.require_length hx.symm x).andThen ?_
  exact code.convolve_parity_yields A hx hroom

end Convolve

section Expand

include hx

theorem expand_onto_yields {y : Buffer σ} (hy : y.size = code.messageSize) :
    Yields (code.expandOnto A x) y () (code.expansion.sums A (x.drop code.parityStart) y) [] := by
  refine (Yields.require_length hx.symm y).andThen ?_
  refine (Yields.cut y (code.parityStart_le_size hx)).andThen ?_
  exact code.expansion.expand_yields A .add (code.size_drop_parity hx) hy

theorem expand_ok : code.expand A x = .ok (code.expanded A x) := by
  have honto : Edit.onto (code.expansionStart A x) (code.expandOnto A x) =
      .ok (code.expanded A x) :=
    (code.expand_onto_yields A hx (code.size_expansionStart A hx)).onto
  have hlength : requireLength code.codeSize x.size = .ok () := if_pos hx.symm
  rw [expand, hlength, x.cut_of_le (code.messageSize_le_size hx)]
  by_cases hs : code.parameters.systematic = true
  · rw [expansionStart, if_pos hs] at honto
    rw [if_pos hs]
    exact honto
  · rw [expansionStart, if_neg hs] at honto
    rw [if_neg hs]
    exact honto

theorem expand_within_yields :
    Yields (code.expandWithin A) x () (x.overlay 0 (code.expanded A x)) [] := by
  have hmessage := code.messageSize_le_size hx
  have hparity := code.size_drop_parity hx
  rw [expandWithin, expanded, expansionStart]
  cases hs : code.parameters.systematic with
  | true =>
    rw [parityStart_of_systematic hs] at hparity ⊢
    have hread := Yields.on_suffix hmessage (Yields.contents _)
    rw [Buffer.overlay_drop] at hread
    refine hread.andThen (.on_first hmessage ?_)
    exact code.expansion.expand_yields A .add hparity (code.size_take_message hx)
  | false =>
    have hstart : code.parityStart = 0 := if_neg (Bool.eq_false_iff.mp hs)
    rw [hstart, Buffer.drop_zero] at hparity ⊢
    have hsums := code.expansion.expand_yields A .overwrite hparity (code.size_blank A)
    rw [Expansion.Mode.start, code.fill_blank A] at hsums
    refine (Yields.contents x).andThen (hsums.aside.andThen (.on_first ?_ (.change _ _)))
    rw [Expansion.size_sums, size_blank]
    exact hmessage

end Expand

include hx in
theorem encode_within_yields (hroom : code.HasRoom) :
    Yields (code.encodeWithin A) x ()
      ((code.convolved A x).overlay 0 (code.encoded A x))
      (.encodeStarted code.codeSize :: code.refills) := by
  have hparity := code.convolve_parity_yields A hx hroom
  have hsecond := code.expand_within_yields A ((code.size_convolved A x).trans hx)
  have hemit := Yields.emit (.encodeStarted x.size) x
  rw [hx] at hemit
  refine (Yields.extent x).andThen ?_
  refine (Yields.require_length hx.symm x).andThen ?_
  refine (Yields.extent x).andThen ?_
  rw [hx]
  refine hemit.bind ?_
  show Yields _ x () _ code.refills
  rw [← List.append_nil code.refills]
  cases hs : code.parameters.systematic with
  | true =>
    rw [parityStart_of_systematic hs] at hparity
    exact hparity.bind hsecond
  | false =>
    -- the parity is the whole codeword
    have hstart : code.parityStart = 0 := if_neg (Bool.eq_false_iff.mp hs)
    have happly := code.apply_parity_yields A hx hroom
    have hall : code.convolved A x = code.convolution.image A code.parameters.seed x := by
      rw [convolved, hstart, Buffer.drop_zero]
      exact Buffer.overlay_all _ _ (code.convolution.size_image A _ x)
    rw [hstart, Buffer.drop_zero, ← hall] at happly
    exact happly.bind hsecond

include hx in
theorem encode_yields (hroom : code.HasRoom) :
    Yields (code.encode A) x () (code.encoded A x)
      (.encodeStarted code.codeSize :: code.refills) := by
  have hsize : (code.encoded A x).size = code.messageSize := code.size_encoded A hx
  have hle := code.size_encoded_le A hx
  have hcut := Yields.change (·.take code.messageSize)
    ((code.convolved A x).overlay 0 (code.encoded A x))
  rw [← hsize, Buffer.take_overlay_zero _ _ hle, hsize] at hcut
  rw [← List.append_nil (.encodeStarted code.codeSize :: code.refills)]
  exact (code.encode_within_yields A hx hroom).bind hcut

end Operations

section Maps

variable {A : Alphabet σ} {B : Alphabet τ} {h : σ → τ} (hh : A.Morphism B h) (code : Code)

include hh

theorem convolved_map (x : Buffer σ) :
    (code.convolved A x).map h = code.convolved B (x.map h) := by
  rw [convolved, Buffer.map_overlay, Convolution.image_map hh, Buffer.map_drop]
  rfl

theorem blank_map : (code.blank A).map h = code.blank B := by
  apply Buffer.ext_cells
  rw [Buffer.cells_map, cells_blank, cells_blank, Array.map_replicate, hh.map_zero]

theorem expansionStart_map (x : Buffer σ) :
    (code.expansionStart A x).map h = code.expansionStart B (x.map h) := by
  rw [expansionStart, expansionStart]
  split
  · exact Buffer.map_take ..
  · exact blank_map hh code

theorem expanded_map (x : Buffer σ) :
    (code.expanded A x).map h = code.expanded B (x.map h) := by
  rw [expanded, Expansion.sums_map hh, Buffer.map_drop, expansionStart_map hh]
  rfl

theorem encoded_map (x : Buffer σ) :
    (code.encoded A x).map h = code.encoded B (x.map h) := by
  rw [encoded, expanded_map hh, convolved_map hh]
  rfl

end Maps

/-- A systematic code of five symbols, two of which are the message. -/
def twoOfFive : Code where
  parameters := ⟨2, 5, 2, 3, true, true, true, Parameters.defaultSeed⟩
  valid := rfl
  hasColumns := by decide

end Code
end ExpandConvolute
