import ExpandConvolute.Proofs.Alphabet.Lawful

/-!
# ExpandConvolute.Proofs.Alphabet.Morphism

Maps between alphabets that carry zero, sum and constant over. The encoder does nothing with
symbols but these three, so whatever it computes is carried over as well; every algebraic law of
an encoder is a statement about some morphism.

* `pair A B` runs two alphabets side by side; its projections are morphisms.
* In a lawful alphabet the sum itself is a morphism from `pair A A`, and zero is one from the
  alphabet `point` that has no other symbol.
* In the field of degree 128, `D * a + b` is a morphism from pairs, for every `D`.
* Between the alphabets of the library, cutting integers down to a smaller width (`truncate`) and
  taking bytes at given places of a byte string (`lanes`) are morphisms.
-/

namespace ExpandConvolute
namespace Alphabet

variable {σ τ : Type}

structure Morphism (A : Alphabet σ) (B : Alphabet τ) (h : σ → τ) : Prop where
  map_zero : h A.zero = B.zero
  map_add : ∀ a b, h (A.add a b) = B.add (h a) (h b)
  map_scale : ∀ a, h (A.scale a) = B.scale (h a)

def pair (A : Alphabet σ) (B : Alphabet τ) : Alphabet (σ × τ) where
  zero := (A.zero, B.zero)
  add p q := (A.add p.1 q.1, B.add p.2 q.2)
  scale p := (A.scale p.1, B.scale p.2)

def point : Alphabet Unit where
  zero := ()
  add _ _ := ()
  scale _ := ()

/-- The bytes of a byte string at the places that `lane` gives. -/
def selectOctets {count count' : Nat} (lane : Fin count' → Fin count) (a : Vector UInt8 count) :
    Vector UInt8 count' :=
  Vector.ofFn fun i => a.get (lane i)

@[simp] theorem getElem_selectOctets {count count' : Nat} (lane : Fin count' → Fin count)
    (a : Vector UInt8 count) {i : Nat} (hi : i < count') :
    (selectOctets lane a)[i] = a.get (lane ⟨i, hi⟩) := Vector.getElem_ofFn hi

namespace Morphism

theorem fst (A : Alphabet σ) (B : Alphabet τ) : Morphism (A.pair B) A Prod.fst :=
  ⟨rfl, fun _ _ => rfl, fun _ => rfl⟩

theorem snd (A : Alphabet σ) (B : Alphabet τ) : Morphism (A.pair B) B Prod.snd :=
  ⟨rfl, fun _ _ => rfl, fun _ => rfl⟩

theorem add {A : Alphabet σ} (hA : A.Lawful) :
    Morphism (A.pair A) A fun p => A.add p.1 p.2 where
  map_zero := hA.zero_add A.zero
  map_add p q := hA.add_add_add_comm p.1 q.1 p.2 q.2
  map_scale p := (hA.scale_add p.1 p.2).symm

theorem zero {A : Alphabet σ} (hA : A.Lawful) : Morphism point A fun _ => A.zero where
  map_zero := rfl
  map_add _ _ := (hA.zero_add A.zero).symm
  map_scale _ := hA.scale_zero.symm

theorem mul_add (D : Degree128.Element) :
    Morphism (field128.pair field128) field128 fun p => Degree128.mul D p.1 ^^^ p.2 where
  map_zero := by
    show Degree128.mul D 0#128 ^^^ 0#128 = 0#128
    rw [Degree128.mul_zero, BitVec.xor_zero]
  map_add p q := by
    show Degree128.mul D (p.1 ^^^ q.1) ^^^ (p.2 ^^^ q.2) = _
    rw [Degree128.mul_xor, xor_xor_xor_comm]
    rfl
  map_scale p := by
    show Degree128.mul D (Degree128.timesX p.1) ^^^ Degree128.timesX p.2 = _
    rw [Degree128.mul_timesX, ← Degree128.timesX_xor]
    rfl

theorem truncate {width width' : Nat} (h : width' ≤ width) :
    Morphism (integers width) (integers width') (BitVec.setWidth width') where
  map_zero := BitVec.setWidth_zero width' width
  map_add a b := BitVec.setWidth_add a b h
  map_scale _ := BitVec.setWidth_shiftLeft_of_le h

theorem lanes {count count' : Nat} (lane : Fin count' → Fin count) :
    Morphism (octets count) (octets count') (selectOctets lane) where
  map_zero := by
    apply Vector.ext
    intro i hi
    simp only [octets, getElem_selectOctets, Vector.getElem_replicate]
    exact Vector.getElem_replicate _
  map_add a b := by
    apply Vector.ext
    intro i hi
    simp only [octets, getElem_selectOctets, Vector.getElem_zipWith]
    exact Vector.getElem_zipWith _
  map_scale a := by
    apply Vector.ext
    intro i hi
    simp only [octets, getElem_selectOctets, Vector.getElem_map]
    exact Vector.getElem_map _ _

end Morphism
end Alphabet
end ExpandConvolute
