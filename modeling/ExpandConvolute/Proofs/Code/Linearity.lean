import ExpandConvolute.Proofs.Code.Outcome

/-!
# ExpandConvolute.Proofs.Code.Linearity

The encoder is linear. A `Uniform` map is given for every alphabet and commutes with morphisms;
`convolving`, `expanding` and `encoding` are such maps. Every law of the encoder is now a law of
uniform maps at one morphism:

* `Uniform.run_zipWith`: an operation on pairs of symbols that is a morphism is carried over to
  whole buffers. The sum of a lawful alphabet is one, and so is `D * a + b` in the field of degree
  128.
* `Uniform.run_zeros`: zeros go to zeros.
-/

namespace ExpandConvolute

open Edit (Yields)

variable {σ τ : Type}

/-- A map from buffers of `n` symbols to buffers of `k` symbols, for every alphabet, that commutes
with the morphisms of alphabets. -/
structure Uniform (n k : Nat) where
  run : {σ : Type} → Alphabet σ → Buffer σ → Buffer σ
  size_run : ∀ {σ : Type} (A : Alphabet σ) {x : Buffer σ}, x.size = n → (run A x).size = k
  run_map : ∀ {σ τ : Type} {A : Alphabet σ} {B : Alphabet τ} {h : σ → τ}, A.Morphism B h →
    ∀ x, (run A x).map h = run B (x.map h)

namespace Uniform

variable {n k : Nat} (F : Uniform n k)

theorem run_zipWith {A : Alphabet σ} {f : σ → σ → σ}
    (hf : (A.pair A).Morphism A fun p => f p.1 p.2) {a b : Buffer σ} (h : a.size = b.size) :
    F.run A (.zipWith f a b) = .zipWith f (F.run A a) (F.run A b) := by
  have hfst := F.run_map (.fst A A) (a.zip b)
  have hsnd := F.run_map (.snd A A) (a.zip b)
  rw [Buffer.map_fst_zip a b h] at hfst
  rw [Buffer.map_snd_zip a b h] at hsnd
  calc F.run A (.zipWith f a b)
      = F.run A ((a.zip b).map fun p => f p.1 p.2) := by rw [Buffer.map_zip]
    _ = (F.run (A.pair A) (a.zip b)).map fun p => f p.1 p.2 := (F.run_map hf _).symm
    _ = .zipWith f (F.run A a) (F.run A b) := by rw [Buffer.map_eq_zipWith, hfst, hsnd]

theorem run_zeros {A : Alphabet σ} (hA : A.Lawful) {z : Buffer σ}
    (hz : z.cells = Array.replicate n A.zero) :
    (F.run A z).cells = Array.replicate k A.zero := by
  have hsize : z.size = n := by
    rw [← Buffer.size_cells, hz, Array.size_replicate]
  have hpoint : (z.map fun _ => ()).map (fun _ => A.zero) = z := by
    apply Buffer.ext_cells
    rw [Buffer.cells_map, Buffer.cells_map, hz, Array.map_replicate, Array.map_replicate]
  have hk : (F.run .point (z.map fun _ => ())).size = k :=
    F.size_run .point (by rw [Buffer.size_map, hsize])
  have hrun := F.run_map (.zero hA) (z.map fun _ => ())
  rw [hpoint] at hrun
  rw [← hrun, Buffer.cells_map, Array.map_const', Buffer.size_cells, hk]

end Uniform

/-- Whatever `takes` buffers of `n` symbols to buffers of `k` symbols takes all of them, sums to
sums and zeros to zeros. -/
structure Additive (A : Alphabet σ) (n k : Nat) (takes : Buffer σ → Buffer σ → Prop) : Prop where
  sum : ∀ a b : Buffer σ, a.size = n → b.size = n →
    ∃ a' b', takes a a' ∧ takes b b' ∧ a'.size = k ∧ b'.size = k ∧
      takes (.zipWith A.add a b) (.zipWith A.add a' b')
  zeros : ∀ z : Buffer σ, z.cells = Array.replicate n A.zero →
    ∃ z', takes z z' ∧ z'.cells = Array.replicate k A.zero

theorem Uniform.additive {n k : Nat} (F : Uniform n k) {A : Alphabet σ} (hA : A.Lawful)
    {takes : Buffer σ → Buffer σ → Prop} (h : ∀ x, x.size = n → takes x (F.run A x)) :
    Additive A n k takes where
  sum a b ha hb := by
    have hsum : (Buffer.zipWith A.add a b).size = n := by
      rw [Buffer.size_zipWith, ha, hb, Nat.min_self]
    have hrun := h _ hsum
    rw [F.run_zipWith (.add hA) (ha.trans hb.symm)] at hrun
    exact ⟨_, _, h a ha, h b hb, F.size_run A ha, F.size_run A hb, hrun⟩
  zeros z hz := by
    have hsize : z.size = n := by
      rw [← Buffer.size_cells, hz, Array.size_replicate]
    exact ⟨_, h z hsize, F.run_zeros hA hz⟩

namespace Code

def convolving (code : Code) : Uniform code.codeSize code.codeSize where
  run := code.convolved
  size_run A x hx := by rw [size_convolved, hx]
  run_map hh := convolved_map hh code

def expanding (code : Code) : Uniform code.codeSize code.messageSize where
  run := code.expanded
  size_run A _ hx := code.size_expanded A hx
  run_map hh := expanded_map hh code

def encoding (code : Code) : Uniform code.codeSize code.messageSize where
  run := code.encoded
  size_run A _ hx := code.size_encoded A hx
  run_map hh := encoded_map hh code

/-- Convolving, expanding and encoding are additive in every alphabet of the library. -/
theorem encoder_additive (code : Code) (κ : Alphabet.Kind) :
    (code.HasRoom →
      Additive κ.alphabet code.codeSize code.codeSize
        (fun x y => ∃ events, Yields (code.convolve κ.alphabet) x () y events)) ∧
      Additive κ.alphabet code.codeSize code.messageSize
        (fun x m => code.expand κ.alphabet x = .ok m) ∧
      (code.HasRoom →
        Additive κ.alphabet code.codeSize code.messageSize
          (fun x m => ∃ events, Yields (code.encode κ.alphabet) x () m events)) := by
  refine ⟨fun hroom => code.convolving.additive κ.lawful ?_, code.expanding.additive κ.lawful ?_,
    fun hroom => code.encoding.additive κ.lawful ?_⟩
  · intro x hx
    exact ⟨_, code.convolve_yields κ.alphabet hx hroom⟩
  · intro x hx
    exact code.expand_ok κ.alphabet hx
  · intro x hx
    exact ⟨_, code.encode_yields κ.alphabet hx hroom⟩

theorem encoder_additive_at_words :
    let a : Buffer (BitVec 8) := .ofVector #v[1, 2, 3, 4, 5] (by decide)
    let b : Buffer (BitVec 8) := .ofVector #v[255, 0, 7, 128, 9] (by decide)
    twoOfFive.HasRoom ∧
      ∃ ma mb, (∃ events, Yields (twoOfFive.encode (.integers 8)) a () ma events) ∧
        (∃ events, Yields (twoOfFive.encode (.integers 8)) b () mb events) ∧
        ∃ events, Yields (twoOfFive.encode (.integers 8)) (.zipWith (· + ·) a b) ()
          (.zipWith (· + ·) ma mb) events := by
  intro a b
  have hroom : twoOfFive.HasRoom := hasRoom_of_lt (by decide)
  obtain ⟨-, -, hencode⟩ := encoder_additive twoOfFive (.integers 8)
  obtain ⟨ma, mb, hma, hmb, -, -, hsum⟩ := (hencode hroom).sum a b (by decide) (by decide)
  exact ⟨hroom, ma, mb, hma, hmb, hsum⟩

/-- Encoding is linear over the field of degree 128, with `D` as the left factor. -/
theorem encode_mul_add (code : Code) (D : Degree128.Element) {a b : Buffer Degree128.Element}
    (ha : a.size = code.codeSize) (hb : b.size = code.codeSize) (hroom : code.HasRoom) :
    ∃ ma mb events,
      Yields (code.encode .field128) a () ma events ∧
      Yields (code.encode .field128) b () mb events ∧
      ma.size = code.messageSize ∧
      mb.size = code.messageSize ∧
      Yields (code.encode .field128)
        (.zipWith (· ^^^ ·) (a.map (Degree128.mul D)) b) ()
        (.zipWith (· ^^^ ·) (ma.map (Degree128.mul D)) mb) events := by
  let F := code.encoding
  have hsize : (Buffer.zipWith (· ^^^ ·) (a.map (Degree128.mul D)) b).size = code.codeSize := by
    rw [Buffer.size_zipWith, Buffer.size_map, ha, hb, Nat.min_self]
  have hrun : F.run .field128 (.zipWith (· ^^^ ·) (a.map (Degree128.mul D)) b) =
      .zipWith (· ^^^ ·) ((F.run .field128 a).map (Degree128.mul D)) (F.run .field128 b) := by
    rw [Buffer.zipWith_map_left, Buffer.zipWith_map_left]
    exact F.run_zipWith (.mul_add D) (ha.trans hb.symm)
  have hencode := code.encode_yields .field128 hsize hroom
  refine ⟨F.run .field128 a, F.run .field128 b, _, code.encode_yields .field128 ha hroom,
    code.encode_yields .field128 hb hroom, F.size_run _ ha, F.size_run _ hb, ?_⟩
  rw [← hrun]
  exact hencode

theorem encode_mul_add_at_words :
    let a : Buffer Degree128.Element := .ofVector #v[1, 2, 3, 4, 5] (by decide)
    let b : Buffer Degree128.Element := .ofVector #v[0, 7, 0, 9, 0] (by decide)
    a.size = twoOfFive.codeSize ∧ b.size = twoOfFive.codeSize ∧ twoOfFive.HasRoom ∧
      ∃ ma mb events,
        Yields (twoOfFive.encode .field128) a () ma events ∧
        Yields (twoOfFive.encode .field128) b () mb events ∧
        Yields (twoOfFive.encode .field128)
          (.zipWith (· ^^^ ·) (a.map (Degree128.mul 3)) b) ()
          (.zipWith (· ^^^ ·) (ma.map (Degree128.mul 3)) mb) events := by
  intro a b
  have ha : a.size = twoOfFive.codeSize := rfl
  have hb : b.size = twoOfFive.codeSize := rfl
  have hroom : twoOfFive.HasRoom := hasRoom_of_lt (by decide)
  obtain ⟨ma, mb, events, hma, hmb, -, -, hsum⟩ := encode_mul_add twoOfFive 3 ha hb hroom
  exact ⟨ha, hb, hroom, ma, mb, events, hma, hmb, hsum⟩

end Code
end ExpandConvolute
