import ExpandConvolute.Proofs.Alphabet.Morphism
import ExpandConvolute.Proofs.Convolution.Sweep

/-!
# ExpandConvolute.Proofs.Convolution.Image

What a convolution makes of a buffer, as a function (`image`), and that it commutes with morphisms
of alphabets (`image_map`): a step touches positions and bits that do not depend on symbols.
-/

namespace ExpandConvolute
namespace Convolution

open Edit (Yields)

variable {σ τ : Type} {m : Nat}

namespace Recurrence

variable {A : Alphabet σ} {B : Alphabet τ} {h : σ → τ} (hh : A.Morphism B h)

include hh

theorem gate_map (x : Vector σ m) (i : Fin m) (bit : Bool) (a : Nat) :
    (gate A x i bit a).map h = gate B (x.map h) i bit a := by
  cases bit with
  | false => rfl
  | true => simp [gate, Vector.map_set, hh.map_add]

theorem closing_map (width : Nat) (x : Vector σ m) (i : Fin m) :
    (closing A width x i).map h = closing B width (x.map h) i := by
  simp [closing, Vector.map_set, hh.map_scale, hh.map_add]

theorem position_map (width : Nat) (bits : Nat → Bool) (x : Vector σ m) (i : Fin m) :
    (position A width bits x i).map h = position B width bits (x.map h) i := by
  rw [position, position, closing_map hh]
  congr 1
  exact (List.foldl_hom _ fun x a => (gate_map hh x i (bits a) a).symm).symm

theorem sweep_map (width : Nat) (bits : Nat → Nat → Bool) (x : Vector σ m) :
    (sweep A width bits x).map h = sweep B width bits (x.map h) :=
  (List.foldl_hom _ fun x i => (position_map hh width (bits i.val) x i).symm).symm

theorem apply_map (C : Convolution) (seed : Seed) (x : Vector σ m) :
    (apply C A seed x).map h = apply C B seed (x.map h) :=
  (List.foldl_hom _ fun x seed =>
    (sweep_map hh C.width (coefficient seed C.width) x).symm).symm

end Recurrence

def image (C : Convolution) (A : Alphabet σ) (seed : Seed) (b : Buffer σ) : Buffer σ :=
  .ofVector (Recurrence.apply C A seed b.toVector) b.size_lt

theorem size_image (C : Convolution) (A : Alphabet σ) (seed : Seed) (b : Buffer σ) :
    (C.image A seed b).size = b.size := Buffer.size_ofVector _ _

theorem apply_yields_image {C : Convolution} (A : Alphabet σ) (seed : Seed) {b : Buffer σ}
    (hroom : C.HasRoom b.size) :
    Yields (C.apply A seed) b () (C.image A seed b)
      (Windows.refills ((C.seeds seed).length * ((b.size - 1) / Windows.perPage C.width))) := by
  have h := apply_yields A b.size_lt hroom seed b.toVector
  rwa [Buffer.ofVector_toVector] at h

theorem image_ofVector (C : Convolution) (A : Alphabet σ) (seed : Seed) (x : Vector σ m)
    (hm : m < sizeLimit) :
    C.image A seed (.ofVector x hm) = .ofVector (Recurrence.apply C A seed x) hm := by
  have hcells : (Recurrence.apply C A seed (Buffer.ofVector x hm).toVector).toArray =
      (Recurrence.apply C A seed x).toArray :=
    Buffer.toVector_ofVector (p := fun y => (Recurrence.apply C A seed y).toArray = _) rfl
  apply Buffer.ext_cells
  rw [image, Buffer.cells_ofVector, Buffer.cells_ofVector]
  exact hcells

theorem image_map {A : Alphabet σ} {B : Alphabet τ} {h : σ → τ} (hh : A.Morphism B h)
    (C : Convolution) (seed : Seed) (b : Buffer σ) :
    (C.image A seed b).map h = C.image B seed (b.map h) := by
  have hmap : b.map h = .ofVector (b.toVector.map h) b.size_lt := by
    rw [← Buffer.map_ofVector, Buffer.ofVector_toVector]
  rw [image, Buffer.map_ofVector, Recurrence.apply_map hh, hmap, image_ofVector]

end Convolution
end ExpandConvolute
