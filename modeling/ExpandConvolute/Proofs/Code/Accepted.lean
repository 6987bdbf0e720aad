import ExpandConvolute.Proofs.Code.Outcome
import ExpandConvolute.Proofs.Session.Refuses

/-!
# ExpandConvolute.Proofs.Code.Accepted

A code that has been accepted cannot fail later. On a codeword of the right length every operation
succeeds (`Proofs.Code.Outcome`); on any other it is refused before anything is done. There is no
third case, so no parameters that were accepted lead to a cut or an index outside a buffer, a number
that is no size or a sampler without indices. Only a sweep needs room beyond that, which nothing in
memory lacks.
-/

namespace ExpandConvolute

open Edit (Yields Refuses Decides)

variable {σ : Type}

namespace Expansion

variable (E : Expansion) (A : Alphabet σ) (mode : Mode) {input y : Buffer σ}

theorem expand_refuses_input (hinput : E.sourceSize ≠ input.size) :
    Refuses (E.expand A mode input) y (.lengthMismatch E.sourceSize input.size) :=
  (Refuses.require_length hinput y).bind _

theorem expand_refuses_output (hinput : E.sourceSize = input.size) (hy : E.messageSize ≠ y.size) :
    Refuses (E.expand A mode input) y (.lengthMismatch E.messageSize y.size) := by
  refine (Yields.require_length hinput y).refuses ?_
  refine (Yields.extent y).refuses ?_
  exact (Refuses.require_length hy y).bind _

end Expansion

namespace Code

theorem ofParameters_parameters (code : Code) : ofParameters code.parameters = .ok code := by
  unfold ofParameters
  split
  · rename_i r hcheck
    rw [code.valid] at hcheck
    cases hcheck
  · exact dif_pos code.hasColumns

theorem parameters_of_accepted {P : Parameters} {code : Code} (h : ofParameters P = .ok code) :
    code.parameters = P := by
  unfold ofParameters at h
  split at h
  · cases h
  · split at h
    · cases h
      rfl
    · cases h

section Refusals

variable (code : Code) (A : Alphabet σ) {x : Buffer σ} (hx : code.codeSize ≠ x.size)

include hx

theorem convolve_refuses :
    Refuses (code.convolve A) x (.lengthMismatch code.codeSize x.size) :=
  (Yields.extent x).refuses ((Refuses.require_length hx x).bind _)

theorem encode_within_refuses :
    Refuses (code.encodeWithin A) x (.lengthMismatch code.codeSize x.size) :=
  (Yields.extent x).refuses ((Refuses.require_length hx x).bind _)

theorem encode_refuses : Refuses (code.encode A) x (.lengthMismatch code.codeSize x.size) :=
  (code.encode_within_refuses A hx).bind _

theorem expand_refuses :
    code.expand A x = .error (.refused (.lengthMismatch code.codeSize x.size)) := by
  rw [expand, requireLength, if_neg hx]
  rfl

theorem expand_onto_refuses_codeword (y : Buffer σ) :
    Refuses (code.expandOnto A x) y (.lengthMismatch code.codeSize x.size) :=
  (Refuses.require_length hx y).bind _

end Refusals

theorem expand_onto_refuses_message (code : Code) (A : Alphabet σ) {x y : Buffer σ}
    (hx : x.size = code.codeSize) (hy : code.messageSize ≠ y.size) :
    Refuses (code.expandOnto A x) y (.lengthMismatch code.messageSize y.size) := by
  refine (Yields.require_length hx.symm y).refuses ?_
  refine (Yields.cut y (code.parityStart_le_size hx)).refuses ?_
  exact code.expansion.expand_refuses_output A .add (code.size_drop_parity hx).symm hy

section Decisions

variable (code : Code) (A : Alphabet σ) (x : Buffer σ)

section Sweeps

variable {x} (hroom : x.size = code.codeSize → code.HasRoom)

include hroom

theorem convolve_decides : Decides (code.convolve A) x (x.size = code.codeSize) :=
  .of_length (fun hx => code.convolve_yields A hx (hroom hx)) (code.convolve_refuses A)

theorem encode_within_decides : Decides (code.encodeWithin A) x (x.size = code.codeSize) :=
  .of_length (fun hx => code.encode_within_yields A hx (hroom hx)) (code.encode_within_refuses A)

theorem encode_decides : Decides (code.encode A) x (x.size = code.codeSize) :=
  .of_length (fun hx => code.encode_yields A hx (hroom hx)) (code.encode_refuses A)

end Sweeps

theorem expand_settles : Settles (x.size = code.codeSize) (code.expand A x) := by
  apply Settles.of_cases
  · intro hx
    exact ⟨_, code.expand_ok A hx⟩
  · intro hx
    exact ⟨_, code.expand_refuses A (Ne.symm hx)⟩

/-- The length of the codeword is checked first. -/
theorem expand_onto_decides (y : Buffer σ) :
    Decides (code.expandOnto A x) y (x.size = code.codeSize ∧ y.size = code.messageSize) := by
  apply Decides.of_cases
  · rintro ⟨hx, hy⟩
    exact ⟨_, _, _, code.expand_onto_yields A hx hy⟩
  · intro h
    by_cases hx : x.size = code.codeSize
    · have hy : code.messageSize ≠ y.size := fun hy => h ⟨hx, hy.symm⟩
      exact ⟨_, code.expand_onto_refuses_message A hx hy⟩
    · exact ⟨_, code.expand_onto_refuses_codeword A (Ne.symm hx) y⟩

/-- A codeword is cut in parts exactly if it is one of a systematic code. -/
theorem parts_cases :
    (code.parameters.systematic = true ∧ x.size = code.codeSize ∧
      code.parts x = .ok (x.take code.messageSize, x.drop code.messageSize)) ∨
    (code.parameters.systematic = true ∧ code.codeSize ≠ x.size ∧
      code.parts x = .error (.refused (.lengthMismatch code.codeSize x.size))) ∨
    (code.parameters.systematic ≠ true ∧ code.parts x = .error (.refused .notSystematic)) := by
  rw [parts]
  by_cases hs : code.parameters.systematic = true
  · by_cases hx : x.size = code.codeSize
    · refine .inl ⟨hs, hx, ?_⟩
      rw [if_pos hs, requireLength, if_pos hx.symm, x.cut_of_le (code.messageSize_le_size hx)]
      rfl
    · refine .inr (.inl ⟨hs, Ne.symm hx, ?_⟩)
      rw [if_pos hs, requireLength, if_neg (Ne.symm hx)]
      rfl
  · refine .inr (.inr ⟨hs, ?_⟩)
    rw [if_neg hs]
    rfl

theorem parts_settles :
    Settles (x.size = code.codeSize ∧ code.parameters.systematic = true) (code.parts x) := by
  obtain ⟨hs, hx, hparts⟩ | ⟨-, hx, hparts⟩ | ⟨hs, hparts⟩ := code.parts_cases x
  · exact .of_cases (fun _ => ⟨_, hparts⟩) fun hno => absurd ⟨hx, hs⟩ hno
  · exact .of_cases (fun hyes => absurd hyes.1.symm hx) fun _ => ⟨_, hparts⟩
  · exact .of_cases (fun hyes => absurd hyes.2 hs) fun _ => ⟨_, hparts⟩

theorem parts_sizes {message parity : Buffer σ} (h : code.parts x = .ok (message, parity)) :
    message.size = code.messageSize ∧ message.cells ++ parity.cells = x.cells := by
  obtain ⟨-, hx, hparts⟩ | ⟨-, -, hparts⟩ | ⟨-, hparts⟩ := code.parts_cases x
  · rw [hparts] at h
    cases h
    exact ⟨code.size_take_message hx, x.take_append_drop (code.messageSize_le_size hx)⟩
  · rw [hparts] at h
    cases h
  · rw [hparts] at h
    cases h

end Decisions

/-- An accepted code is never at fault. Whatever the lengths of the vectors are, each operation
succeeds exactly if they are those of the parameters (and the code is systematic, to be cut in
parts). An operation that sweeps relies on the room that it needs, which every codeword in memory
has. -/
theorem accepted_never_at_fault {P : Parameters} {code : Code} (h : ofParameters P = .ok code)
    (A : Alphabet σ) (x y : Buffer σ) :
    ((x.size = P.codeSize.toNat → code.HasRoom) →
      Decides (code.convolve A) x (x.size = P.codeSize.toNat) ∧
      Decides (code.encode A) x (x.size = P.codeSize.toNat) ∧
      Decides (code.encodeWithin A) x (x.size = P.codeSize.toNat)) ∧
    Settles (x.size = P.codeSize.toNat) (code.expand A x) ∧
    Decides (code.expandOnto A x) y
      (x.size = P.codeSize.toNat ∧ y.size = P.messageSize.toNat) ∧
    Settles (x.size = P.codeSize.toNat ∧ P.systematic = true) (code.parts x) ∧
    ∀ message parity, code.parts x = .ok (message, parity) →
      message.size = P.messageSize.toNat ∧ message.cells ++ parity.cells = x.cells := by
  obtain rfl := parameters_of_accepted h
  refine ⟨fun hroom => ⟨code.convolve_decides A hroom, code.encode_decides A hroom,
    code.encode_within_decides A hroom⟩, code.expand_settles A x, code.expand_onto_decides A x y,
    code.parts_settles x, ?_⟩
  intro message parity hparts
  exact code.parts_sizes x hparts

theorem accepted_never_at_fault_at_words :
    let word : Buffer Bool := .ofVector #v[true, false, true, true, false] (by decide)
    let long : Buffer Bool := .ofVector #v[true, false, true] (by decide)
    ofParameters ⟨2, 5, 2, 3, true, true, true, Parameters.defaultSeed⟩ = .ok twoOfFive ∧
      (∃ a, (twoOfFive.encode .bits).result ⟨word, []⟩ = .ok a) ∧
      (∃ a, (twoOfFive.expandOnto .bits word).result ⟨word.take 2, []⟩ = .ok a) ∧
      (¬ ∃ a, (twoOfFive.expandOnto .bits word).result ⟨long, []⟩ = .ok a) ∧
      (∀ f, (twoOfFive.expandOnto .bits word).result ⟨long, []⟩ ≠ .error (.fault f)) ∧
      ∃ message parity, twoOfFive.parts word = .ok (message, parity) ∧
        message.size = 2 ∧ message.cells ++ parity.cells = word.cells := by
  intro word long
  have hcode := twoOfFive.ofParameters_parameters
  have hroom : twoOfFive.HasRoom := hasRoom_of_lt (by decide)
  obtain ⟨hsweeps, -, hshort, hparts, hcut⟩ :=
    accepted_never_at_fault hcode .bits word (word.take 2)
  obtain ⟨-, -, hlong, -⟩ := accepted_never_at_fault hcode .bits word long
  obtain ⟨-, hencode, -⟩ := hsweeps fun _ => hroom
  obtain ⟨⟨message, parity⟩, hmessage⟩ := hparts.ok_iff.mpr ⟨rfl, rfl⟩
  refine ⟨hcode, (hencode []).ok_iff.mpr rfl, (hshort []).ok_iff.mpr ⟨rfl, rfl⟩, ?_,
    (hlong []).no_fault, message, parity, hmessage, hcut message parity hmessage⟩
  intro hok
  exact absurd ((hlong []).ok_iff.mp hok).2 (by decide)

end Code
end ExpandConvolute
