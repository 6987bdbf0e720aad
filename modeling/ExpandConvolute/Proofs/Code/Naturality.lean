import ExpandConvolute.Proofs.Code.Outcome

/-!
# ExpandConvolute.Proofs.Code.Naturality

Encoding commutes with morphisms of alphabets. A code never looks at the symbols that it works on:
positions, coefficients and sources come from the parameters alone, and symbols are only added up
and multiplied by the constant. So the image of an encoding is the encoding of the image.

Integers are an instance, where encoding modulo a smaller power of two is encoding modulo a larger
one and reducing, and so are byte strings, where each lane of bytes is encoded by itself.
-/

namespace ExpandConvolute
namespace Code

open Edit (Yields)

variable {σ τ : Type}

/-- The encoder does to the image of a codeword over `B` what it does to the codeword over `A`. -/
structure Natural (code : Code) (A : Alphabet σ) (B : Alphabet τ) (h : σ → τ) : Prop where
  convolve : code.HasRoom → ∀ x : Buffer σ, x.size = code.codeSize →
    ∃ a events, Yields (code.convolve A) x () a events ∧
      Yields (code.convolve B) (x.map h) () (a.map h) events
  expand : ∀ x : Buffer σ, x.size = code.codeSize →
    ∃ m, code.expand A x = .ok m ∧ code.expand B (x.map h) = .ok (m.map h)
  encode : code.HasRoom → ∀ x : Buffer σ, x.size = code.codeSize →
    ∃ m events, Yields (code.encode A) x () m events ∧
      Yields (code.encode B) (x.map h) () (m.map h) events

theorem natural {A : Alphabet σ} {B : Alphabet τ} {h : σ → τ} (hh : A.Morphism B h)
    (code : Code) : code.Natural A B h := by
  have hsize : ∀ {x : Buffer σ}, x.size = code.codeSize → (x.map h).size = code.codeSize := by
    intro x hx
    rw [Buffer.size_map, hx]
  constructor
  · intro hroom x hx
    refine ⟨_, _, code.convolve_yields A hx hroom, ?_⟩
    rw [convolved_map hh]
    exact code.convolve_yields B (hsize hx) hroom
  · intro x hx
    refine ⟨_, code.expand_ok A hx, ?_⟩
    rw [expanded_map hh]
    exact code.expand_ok B (hsize hx)
  · intro hroom x hx
    refine ⟨_, _, code.encode_yields A hx hroom, ?_⟩
    rw [encoded_map hh]
    exact code.encode_yields B (hsize hx) hroom

/-- The encoder is natural in every morphism of alphabets. Cutting integers down to a smaller
width is one, and so is any choice of the lanes of a byte string. -/
theorem encoder_natural (code : Code) :
    (∀ {σ τ : Type} {A : Alphabet σ} {B : Alphabet τ} {h : σ → τ},
      A.Morphism B h → code.Natural A B h) ∧
    (∀ width width' : Nat, width' ≤ width →
      (Alphabet.integers width).Morphism (.integers width') (BitVec.setWidth width') ∧
        code.Natural (.integers width) (.integers width') (BitVec.setWidth width')) ∧
    ∀ {count count' : Nat} (lane : Fin count' → Fin count),
      (Alphabet.octets count).Morphism (.octets count') (Alphabet.selectOctets lane) ∧
        code.Natural (.octets count) (.octets count') (Alphabet.selectOctets lane) := by
  refine ⟨?_, ?_, ?_⟩
  · intro σ τ A B h hh
    exact natural hh code
  · intro width width' hle
    have hh := Alphabet.Morphism.truncate hle
    exact ⟨hh, natural hh code⟩
  · intro count count' lane
    have hh := Alphabet.Morphism.lanes lane
    exact ⟨hh, natural hh code⟩

/-- The second byte of every symbol is encoded by itself. -/
theorem encoder_natural_at_octets :
    let x : Buffer (Vector UInt8 2) :=
      .ofVector #v[#v[1, 2], #v[0, 255], #v[3, 3], #v[9, 0], #v[7, 128]] (by decide)
    let second : Vector UInt8 2 → Vector UInt8 1 := Alphabet.selectOctets fun _ => 1
    x.size = twoOfFive.codeSize ∧ twoOfFive.HasRoom ∧
      ∃ m events, Yields (twoOfFive.encode (.octets 2)) x () m events ∧
        Yields (twoOfFive.encode (.octets 1)) (x.map second) () (m.map second) events := by
  intro x second
  have hx : x.size = twoOfFive.codeSize := rfl
  have hroom : twoOfFive.HasRoom := hasRoom_of_lt (by decide)
  obtain ⟨-, hnatural⟩ := (encoder_natural twoOfFive).2.2 fun _ : Fin 1 => (1 : Fin 2)
  exact ⟨hx, hroom, hnatural.encode hroom x hx⟩

end Code
end ExpandConvolute
