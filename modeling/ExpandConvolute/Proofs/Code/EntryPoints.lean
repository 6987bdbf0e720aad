import ExpandConvolute.Proofs.Code.Outcome

/-!
# ExpandConvolute.Proofs.Code.EntryPoints

The ways into the encoder agree. Whether a codeword is encoded in one go, in place, or convolved
first and expanded then, the message is the same.
-/

namespace ExpandConvolute
namespace Code

open Edit (Yields)

variable {σ : Type}

/-- The starting point of the sums, as a caller of `expandOnto` has to provide it. -/
theorem expansionStart_convolved (code : Code) (A : Alphabet σ) (x : Buffer σ)
    (hs : code.parameters.systematic = true) :
    code.expansionStart A (code.convolved A x) = x.take code.messageSize := by
  rw [expansionStart, if_pos hs, convolved, parityStart_of_systematic hs]
  exact Buffer.take_overlay_le _ _ (Nat.le_refl _)

theorem expansionStart_zeros (code : Code) (A : Alphabet σ) (x : Buffer σ) {z : Buffer σ}
    (hs : code.parameters.systematic = false)
    (hz : z.cells = Array.replicate code.messageSize A.zero) : code.expansionStart A x = z := by
  rw [expansionStart, if_neg (Bool.eq_false_iff.mp hs)]
  apply Buffer.ext_cells
  rw [cells_blank, hz]

/-- Let `a` be the convolved codeword and `m` the message that `expand` makes of it. Then `encode`
leaves `m`, `encodeWithin` leaves `m` with what follows the message in `a`, and `expandOnto`, on
the message of a systematic codeword or on zeros, leaves `m` as well. -/
theorem entry_points_agree (code : Code) (A : Alphabet σ) {x : Buffer σ}
    (hx : x.size = code.codeSize) (hroom : code.HasRoom) :
    ∃ a m events,
      Yields (code.convolve A) x () a events ∧
      code.expand A a = .ok m ∧
      m.size = code.messageSize ∧
      Yields (code.encode A) x () m (.encodeStarted code.codeSize :: events) ∧
      (∃ y, y.cells = m.cells ++ a.cells.extract code.messageSize code.codeSize ∧
        Yields (code.encodeWithin A) x () y (.encodeStarted code.codeSize :: events)) ∧
      (code.parameters.systematic = true →
        Yields (code.expandOnto A a) (x.take code.messageSize) () m []) ∧
      (code.parameters.systematic = false →
        ∀ z : Buffer σ, z.cells = Array.replicate code.messageSize A.zero →
          Yields (code.expandOnto A a) z () m []) := by
  have ha : (code.convolved A x).size = code.codeSize := by rw [size_convolved, hx]
  have hm : (code.encoded A x).size = code.messageSize := code.size_encoded A hx
  have honto := code.expand_onto_yields A ha (code.size_expansionStart A ha)
  refine ⟨code.convolved A x, code.encoded A x, code.refills, code.convolve_yields A hx hroom,
    code.expand_ok A ha, hm, code.encode_yields A hx hroom, ?_, ?_, ?_⟩
  · refine ⟨_, ?_, code.encode_within_yields A hx hroom⟩
    have hle : (code.encoded A x).size ≤ (code.convolved A x).size := by
      rw [hm, ha]
      exact code.messageSize_le
    rw [Buffer.cells_overlay_zero _ _ hle, hm, ha]
  · intro hs
    rw [code.expansionStart_convolved A x hs] at honto
    rw [encoded, expanded, code.expansionStart_convolved A x hs]
    exact honto
  · intro hs z hz
    have hstart := code.expansionStart_zeros A (code.convolved A x) hs hz
    rw [hstart] at honto
    rw [encoded, expanded, hstart]
    exact honto

theorem entry_points_agree_at_word :
    let word : Buffer Bool := .ofVector #v[true, false, true, true, false] (by decide)
    word.size = twoOfFive.codeSize ∧ twoOfFive.HasRoom ∧
      twoOfFive.parameters.systematic = true ∧
      ∃ a m events,
        Yields (twoOfFive.convolve .bits) word () a events ∧
        twoOfFive.expand .bits a = .ok m ∧
        m.size = 2 ∧
        Yields (twoOfFive.encode .bits) word () m (.encodeStarted 5 :: events) ∧
        Yields (twoOfFive.expandOnto .bits a) (word.take 2) () m [] := by
  intro word
  have hword : word.size = twoOfFive.codeSize := rfl
  have hroom : twoOfFive.HasRoom := hasRoom_of_lt (by decide)
  obtain ⟨a, m, events, hconvolve, hexpand, hm, hencode, -, honto, -⟩ :=
    entry_points_agree twoOfFive .bits hword hroom
  exact ⟨hword, hroom, rfl, a, m, events, hconvolve, hexpand, hm, hencode, honto rfl⟩

end Code
end ExpandConvolute
