import ExpandConvolute.Proofs.Alphabet.Binary

/-!
# ExpandConvolute.Proofs.Alphabet.Laws

What the encoder may take for granted of the alphabets of the library. Under its sum every alphabet
is a commutative group, and the product with its constant is an endomorphism (`Kind.symbol_laws`).

The constants differ in what they lose. In integers the constant doubles (`integers_scale`), so the
top bit is lost (`integers_scale_top`); in all other alphabets nothing is, and every symbol is its own
negative. `Kind.scale_injective_iff` draws the line: doubling is injective only on the integers of
width zero.
-/

namespace ExpandConvolute
namespace Alphabet

/-! ## Doubling -/

theorem integers_scale (width : Nat) (a : BitVec width) :
    (integers width).scale a = (integers width).add a a := by
  apply BitVec.eq_of_toNat_eq
  show (a <<< 1).toNat = (a + a).toNat
  rw [BitVec.toNat_shiftLeft, BitVec.toNat_add, Nat.shiftLeft_eq, Nat.pow_one, Nat.mul_two]

theorem integers_scale_top (width : Nat) :
    (integers (width + 1)).scale (BitVec.twoPow (width + 1) width) = (integers (width + 1)).zero := by
  show BitVec.twoPow (width + 1) width <<< 1 = 0#(width + 1)
  rw [BitVec.shiftLeft_eq_mul_twoPow, BitVec.twoPow_mul_twoPow_eq]
  apply BitVec.eq_of_toNat_eq
  rw [BitVec.toNat_twoPow_of_le (Nat.le_refl _)]
  rfl

theorem twoPow_top_ne_zero (width : Nat) : BitVec.twoPow (width + 1) width ≠ 0#(width + 1) := by
  intro h
  have hbit := congrArg (BitVec.getLsbD · width) h
  simp at hbit

theorem integers_scale_not_injective (width : Nat) :
    ¬ Function.Injective (integers (width + 1)).scale := by
  intro hinjective
  have hzero := (Lawful.integers (width + 1)).scale_zero
  exact twoPow_top_ne_zero width (hinjective ((integers_scale_top width).trans hzero.symm))

/-! ## All kinds -/

namespace Kind

theorem scale_injective_iff (κ : Kind) :
    Function.Injective κ.alphabet.scale ↔ ∀ width, κ ≠ .integers (width + 1) := by
  constructor
  · rintro hinjective width rfl
    exact integers_scale_not_injective width hinjective
  · intro hne
    cases κ with
    | integers width =>
      cases width with
      | zero =>
        intro a b _
        exact Subsingleton.elim (α := BitVec 0) a b
      | succ width => exact absurd rfl (hne width)
    | field128 => exact Binary.field128.scale_bijective.injective
    | bits => exact Binary.bits.scale_bijective.injective
    | octets count => exact (Binary.octets count).scale_bijective.injective

theorem existsUnique_negative (κ : Kind) (a : κ.Symbol) :
    ∃! b, κ.alphabet.add a b = κ.alphabet.zero := by
  obtain ⟨b, hb⟩ := κ.exists_negative a
  refine ⟨b, hb, ?_⟩
  intro c hc
  apply κ.add_right_cancel (c := a)
  rw [κ.lawful.add_comm c, κ.lawful.add_comm b, hc, hb]

/-- Under its sum an alphabet of the library is a commutative group, and the product with its
constant respects sums. In integers this product is the sum of a symbol with itself; in every other
kind it is injective and that sum is zero. -/
theorem symbol_laws (κ : Kind) :
    let A := κ.alphabet
    (∀ a b c, A.add (A.add a b) c = A.add a (A.add b c)) ∧
    (∀ a b, A.add a b = A.add b a) ∧
    (∀ a, A.add A.zero a = a ∧ A.add a A.zero = a) ∧
    (∀ a, ∃! b, A.add a b = A.zero) ∧
    (∀ a b, A.scale (A.add a b) = A.add (A.scale a) (A.scale b)) ∧
    A.scale A.zero = A.zero ∧
    ((∀ width, κ ≠ .integers width) → Function.Injective A.scale ∧ ∀ a, A.add a a = A.zero) ∧
    (∀ width, κ = .integers width → ∀ a, A.scale a = A.add a a) ∧
    (Function.Injective A.scale ↔ ∀ width, κ ≠ .integers (width + 1)) := by
  intro A
  have hA : A.Lawful := κ.lawful
  refine ⟨hA.add_assoc, hA.add_comm, fun a => ⟨hA.zero_add a, hA.add_zero a⟩,
    κ.existsUnique_negative, hA.scale_add, hA.scale_zero, ?_, ?_, κ.scale_injective_iff⟩
  · intro hne
    have hbinary := Kind.binary hne
    exact ⟨hbinary.scale_bijective.injective, hbinary.add_self⟩
  · rintro width rfl
    exact integers_scale width

theorem symbol_laws_at_octets_and_integers :
    let A := (Kind.octets 2).alphabet
    let B := (Kind.integers 8).alphabet
    A.scale #v[0x80, 0x01] = #v[0x1d, 0x02] ∧
      (∀ a, A.scale a = #v[0x1d, 0x02] → a = #v[0x80, 0x01]) ∧
      A.add #v[0x80, 0x01] #v[0x80, 0x01] = A.zero ∧
      B.scale 0xc1#8 = B.add 0xc1#8 0xc1#8 ∧ B.scale 0xc1#8 = 0x82#8 ∧
      ¬ Function.Injective B.scale := by
  intro A B
  obtain ⟨-, -, -, -, -, -, hoctets, -⟩ := symbol_laws (.octets 2)
  obtain ⟨-, -, -, -, -, -, -, hdouble, hiff⟩ := symbol_laws (.integers 8)
  obtain ⟨hinjective, hself⟩ := hoctets nofun
  have hvalue : A.scale #v[0x80, 0x01] = #v[0x1d, 0x02] := by decide +kernel
  refine ⟨hvalue, ?_, hself _, hdouble 8 rfl 0xc1#8, by decide, ?_⟩
  · intro a ha
    exact hinjective (ha.trans hvalue.symm)
  · intro h
    exact hiff.mp h 7 rfl

end Kind
end Alphabet
end ExpandConvolute
