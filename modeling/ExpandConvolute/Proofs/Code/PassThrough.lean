import ExpandConvolute.Proofs.Alphabet.Binary
import ExpandConvolute.Proofs.Code.EntryPoints
import ExpandConvolute.Proofs.Code.Linearity
import ExpandConvolute.Proofs.Expansion.Rows

/-!
# ExpandConvolute.Proofs.Code.PassThrough

What a systematic code does with the message part of a codeword. Two codewords with the same parity
are compared: the parity is convolved by itself, so it comes out the same for both, and the sums of
the convolved parity are added to whatever the message part holds. The encoding of a message is
the message with a mask added, where the mask is the encoding of zeros in its place.

* `Joins m p x`: the codeword `x` is the message `m` followed by the parity `p`.
* `convolved_joins`, `encoded_joins`: both halves of the encoder in terms of the two parts.
* `encoded_eq_add_mask`: the law of the mask, in any lawful alphabet.
-/

namespace ExpandConvolute

open Edit (Yields)

variable {σ : Type}

namespace Code

structure Joins (code : Code) (m p x : Buffer σ) : Prop where
  size : x.size = code.codeSize
  size_message : m.size = code.messageSize
  cells : x.cells = m.cells ++ p.cells

namespace Joins

variable {code : Code} {m p x : Buffer σ}

theorem take_eq (h : code.Joins m p x) : x.take code.messageSize = m := by
  apply Buffer.ext_getElem?
  intro i
  rw [Buffer.getElem?_take, h.cells, Array.getElem?_append, ← h.size_message, Buffer.size_cells]
  by_cases hi : i < m.size
  · rw [if_pos hi, if_pos hi]
  · rw [if_neg hi, m.getElem?_of_le (Nat.le_of_not_lt hi)]

theorem drop_eq (h : code.Joins m p x) : x.drop code.messageSize = p := by
  apply Buffer.ext_getElem?
  intro i
  rw [Buffer.getElem?_drop, h.cells, ← h.size_message, ← Buffer.size_cells m,
    Array.getElem?_append_right (Nat.le_add_right _ _), Nat.add_sub_cancel_left]

theorem of_parts (hx : x.size = code.codeSize) (hm : x.take code.messageSize = m)
    (hp : x.drop code.messageSize = p) : code.Joins m p x := by
  subst hm hp
  exact ⟨hx, code.size_take_message hx,
    (x.take_append_drop (code.messageSize_le_size hx)).symm⟩

theorem size_parity (h : code.Joins m p x) : code.messageSize + p.size = code.codeSize := by
  have hsize : x.size = m.size + p.size := by
    rw [← Buffer.size_cells, h.cells, Array.size_append, Buffer.size_cells, Buffer.size_cells]
  rw [← h.size, hsize, h.size_message]

theorem zeros {A : Alphabet σ} (h : code.Joins m p x)
    (hm : m.cells = Array.replicate code.messageSize A.zero)
    (hp : p.cells = Array.replicate p.size A.zero) :
    x.cells = Array.replicate code.codeSize A.zero := by
  rw [h.cells, hm, hp, Array.replicate_append_replicate, h.size_parity]

end Joins

section Systematic

variable {code : Code} (hs : code.parameters.systematic = true) (A : Alphabet σ)
  {m p x : Buffer σ} (h : code.Joins m p x)

include hs h

theorem convolved_joins :
    code.Joins m (code.convolution.image A code.parameters.seed p) (code.convolved A x) := by
  rw [convolved, parityStart_of_systematic hs, h.drop_eq]
  refine .of_parts (by rw [Buffer.size_overlay, h.size]) ?_ ?_
  · rw [Buffer.take_overlay_le _ _ (Nat.le_refl _), h.take_eq]
  · apply Buffer.drop_overlay
    rw [Convolution.size_image, h.size_parity, h.size]

theorem encoded_joins :
    code.encoded A x =
      code.expansion.sums A (code.convolution.image A code.parameters.seed p) m := by
  have hconvolved := convolved_joins hs A h
  rw [encoded, expanded, code.expansionStart_convolved A x hs, h.take_eq,
    parityStart_of_systematic hs, hconvolved.drop_eq]

/-- Encoding in place leaves the convolved parity behind the message. -/
theorem encoded_within_joins :
    code.Joins (code.encoded A x) (code.convolution.image A code.parameters.seed p)
      ((code.convolved A x).overlay 0 (code.encoded A x)) := by
  have hconvolved := convolved_joins hs A h
  have hsize : (code.encoded A x).size = code.messageSize := code.size_encoded A h.size
  refine .of_parts (by rw [Buffer.size_overlay, hconvolved.size]) ?_ ?_
  · rw [← hsize, Buffer.take_overlay_zero _ _ (code.size_encoded_le A h.size)]
  · rw [Buffer.drop_overlay_zero _ _ (Nat.le_of_eq hsize), hconvolved.drop_eq]

theorem encoded_eq_add_mask {A : Alphabet σ} (hA : A.Lawful) {zeros z : Buffer σ}
    (hzeros : zeros.cells = Array.replicate code.messageSize A.zero)
    (hz : code.Joins zeros p z) :
    code.encoded A x = .zipWith A.add m (code.encoded A z) := by
  have hfill : m.fill A.zero = zeros := by
    apply Buffer.ext_cells
    rw [hzeros, ← h.size_message, Buffer.cells_fill]
  rw [encoded_joins hs A h, encoded_joins hs A hz, code.expansion.sums_eq_zipWith hA, hfill]

end Systematic

theorem zipWith_add_zeros {A : Alphabet σ} (hA : A.Lawful) {m mask : Buffer σ}
    (hmask : mask.cells = Array.replicate m.size A.zero) : .zipWith A.add m mask = m := by
  apply Buffer.ext_getElem?
  intro i
  rw [Buffer.getElem?_zipWith, hmask, Array.getElem?_replicate]
  by_cases hi : i < m.size
  · rw [if_pos hi, m.getElem?_of_lt hi]
    exact congrArg some (hA.add_zero _)
  · rw [if_neg hi, m.getElem?_of_le (Nat.le_of_not_lt hi)]

theorem zipWith_add_cancel (κ : Alphabet.Kind) {m m' mask : Buffer κ.Symbol}
    (hm : m.size = mask.size) (hm' : m'.size = mask.size)
    (h : Buffer.zipWith κ.alphabet.add m mask = .zipWith κ.alphabet.add m' mask) : m = m' := by
  apply Buffer.ext_getElem?
  intro i
  by_cases hi : i < mask.size
  · have him : i < m.size := hm.symm ▸ hi
    have him' : i < m'.size := hm'.symm ▸ hi
    have hcell := congrArg (fun b : Buffer κ.Symbol => b.cells[i]?) h
    simp only [Buffer.getElem?_zipWith, m.getElem?_of_lt him, m'.getElem?_of_lt him',
      mask.getElem?_of_lt hi] at hcell
    rw [m.getElem?_of_lt him, m'.getElem?_of_lt him']
    exact congrArg some (κ.add_right_cancel (Option.some.inj hcell))
  · rw [m.getElem?_of_le (by omega), m'.getElem?_of_le (by omega)]

/-- Let `z` be the codeword with zeros in place of the message. Its encoding is the mask of the
parity `p`. For every message `m` in front of the same parity, convolving keeps `m` and leaves the
same suffix behind it, encoding gives `m` with the mask added, and encoding in place leaves that
with the same suffix. If the parity is zero, every message is its own encoding, and no two messages
in front of one parity have the same encoding. -/
theorem message_passes_through (code : Code) (hs : code.parameters.systematic = true)
    (hroom : code.HasRoom) (κ : Alphabet.Kind) {zeros p z : Buffer κ.Symbol}
    (hzeros : zeros.cells = Array.replicate code.messageSize κ.alphabet.zero)
    (hz : code.Joins zeros p z) :
    ∃ mask suffix : Buffer κ.Symbol,
      (∃ events, Yields (code.encode κ.alphabet) z () mask events) ∧
      mask.size = code.messageSize ∧
      (∀ m x, code.Joins m p x →
        (∃ a events, Yields (code.convolve κ.alphabet) x () a events ∧ code.Joins m suffix a) ∧
        (∃ events,
          Yields (code.encode κ.alphabet) x () (.zipWith κ.alphabet.add m mask) events) ∧
        ∃ y events, Yields (code.encodeWithin κ.alphabet) x () y events ∧
          code.Joins (.zipWith κ.alphabet.add m mask) suffix y) ∧
      (p.cells = Array.replicate p.size κ.alphabet.zero →
        ∀ m x, code.Joins m p x →
          ∃ events, Yields (code.encode κ.alphabet) x () m events) ∧
      ∀ m m' x x' y events events', code.Joins m p x → code.Joins m' p x' →
        Yields (code.encode κ.alphabet) x () y events →
        Yields (code.encode κ.alphabet) x' () y events' → m = m' := by
  let A := κ.alphabet
  let mask := code.encoded A z
  have hmask : mask.size = code.messageSize := code.size_encoded A hz.size
  have hlaw : ∀ {m x}, code.Joins m p x → code.encoded A x = .zipWith A.add m mask := by
    intro m x h
    exact encoded_eq_add_mask hs h κ.lawful hzeros hz
  have hencode : ∀ {m x}, code.Joins m p x →
      Yields (code.encode A) x () (.zipWith A.add m mask)
        (.encodeStarted code.codeSize :: code.refills) := by
    intro m x h
    rw [← hlaw h]
    exact code.encode_yields A h.size hroom
  refine ⟨mask, code.convolution.image A code.parameters.seed p,
    ⟨_, code.encode_yields A hz.size hroom⟩, hmask, ?_, ?_, ?_⟩
  · intro m x h
    refine ⟨⟨_, _, code.convolve_yields A h.size hroom, convolved_joins hs A h⟩, ⟨_, hencode h⟩, ?_⟩
    refine ⟨_, _, code.encode_within_yields A h.size hroom, ?_⟩
    rw [← hlaw h]
    exact encoded_within_joins hs A h
  · intro hp m x h
    have hzero : mask.cells = Array.replicate m.size A.zero := by
      rw [h.size_message]
      exact code.encoding.run_zeros κ.lawful (hz.zeros hzeros hp)
    have hrun := hencode h
    rw [zipWith_add_zeros κ.lawful hzero] at hrun
    exact ⟨_, hrun⟩
  · intro m m' x x' y events events' h h' hy hy'
    have hsame : Buffer.zipWith A.add m mask = .zipWith A.add m' mask :=
      ((hencode h).buffer_unique hy).trans ((hencode h').buffer_unique hy').symm
    exact zipWith_add_cancel κ (h.size_message.trans hmask.symm)
      (h'.size_message.trans hmask.symm) hsame

theorem message_passes_through_at_words :
    let zeros : Buffer Bool := .ofVector #v[false, false] (by decide)
    let m : Buffer Bool := .ofVector #v[true, false] (by decide)
    let p : Buffer Bool := .ofVector #v[true, true, false] (by decide)
    let z : Buffer Bool := .ofVector #v[false, false, true, true, false] (by decide)
    let x : Buffer Bool := .ofVector #v[true, false, true, true, false] (by decide)
    twoOfFive.parameters.systematic = true ∧ twoOfFive.HasRoom ∧
      zeros.cells = Array.replicate twoOfFive.messageSize false ∧
      twoOfFive.Joins zeros p z ∧ twoOfFive.Joins m p x ∧
      ∃ (mask suffix a : Buffer Bool) (events events' : List Event),
        Yields (twoOfFive.encode .bits) z () mask events ∧
        Yields (twoOfFive.encode .bits) x () (.zipWith xor m mask) events' ∧
        (∃ events, Yields (twoOfFive.convolve .bits) x () a events) ∧
        twoOfFive.Joins m suffix a := by
  intro zeros m p z x
  have hroom : twoOfFive.HasRoom := hasRoom_of_lt (by decide)
  have hzeros : zeros.cells = Array.replicate twoOfFive.messageSize false := rfl
  have hz : twoOfFive.Joins zeros p z := ⟨rfl, rfl, rfl⟩
  have hx : twoOfFive.Joins m p x := ⟨rfl, rfl, rfl⟩
  obtain ⟨mask, suffix, ⟨events, hmask⟩, -, hall, -, -⟩ :=
    message_passes_through twoOfFive rfl hroom .bits hzeros hz
  obtain ⟨⟨a, events'', ha, hjoins⟩, ⟨events', hm⟩, -⟩ := hall m x hx
  exact ⟨rfl, hroom, hzeros, hz, hx, mask, suffix, a, events, events', hmask, hm, ⟨_, ha⟩, hjoins⟩

end Code
end ExpandConvolute
