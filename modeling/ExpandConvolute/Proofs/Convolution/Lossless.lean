import ExpandConvolute.Proofs.Alphabet.Binary
import ExpandConvolute.Proofs.Convolution.Image

/-!
# ExpandConvolute.Proofs.Convolution.Lossless

When a convolution loses nothing. If a buffer has at least `width + 2` cells, no window comes back
to its own source (`place_ne`), so every single update adds one cell to another one and can be
undone in a binary alphabet; the convolution is a composition of such updates, whatever the
coefficients are (`apply_bijective`). With one cell less the closing target is the source itself:
each position ends as twice itself, which is zero, and nothing follows the last one
(`apply_last`).
-/

namespace ExpandConvolute
namespace Convolution

open Edit (Yields)

variable {σ : Type} {m : Nat}

namespace Recurrence

theorem place_ne (i : Fin m) {d : Nat} (hpos : 0 < d) (hlt : d < m) : place i d ≠ i := by
  intro h
  have hi := i.isLt
  have hval : (i.val + d) % m = i.val := congrArg Fin.val h
  by_cases hwrap : i.val + d < m
  · rw [Nat.mod_eq_of_lt hwrap] at hval
    omega
  · rw [Nat.mod_eq_sub_mod (by omega), Nat.mod_eq_of_lt (by omega)] at hval
    omega

theorem place_size (i : Fin m) : place i m = i := by
  apply Fin.ext
  show (i.val + m) % m = i.val
  rw [Nat.add_mod_right, Nat.mod_eq_of_lt i.isLt]

/-- The cell at `t` replaced by the value of `f` at it and the cell at `s`. -/
def combine (f : σ → σ → σ) (t s : Fin m) (x : Vector σ m) : Vector σ m :=
  x.set t (f (x.get t) (x.get s)) t.isLt

section Combine

variable {f : σ → σ → σ} {t s : Fin m}

@[simp] theorem get_combine_self (x : Vector σ m) :
    (combine f t s x).get t = f (x.get t) (x.get s) :=
  Vector.getElem_set_self t.isLt

theorem get_combine_of_ne {j : Fin m} (h : j ≠ t) (x : Vector σ m) :
    (combine f t s x).get j = x.get j :=
  Vector.getElem_set_ne t.isLt j.isLt fun hval => h (Fin.ext hval.symm)

theorem ext_get {x y : Vector σ m} (h : ∀ j, x.get j = y.get j) : x = y :=
  Vector.ext fun j hj => h ⟨j, hj⟩

theorem combine_bijective (hf : ∀ b, Function.Bijective (f · b)) (hst : s ≠ t) :
    Function.Bijective (combine f t s) := by
  constructor
  · intro x y hxy
    have hcell : ∀ j, (combine f t s x).get j = (combine f t s y).get j := by
      intro j
      rw [hxy]
    have hother : ∀ j, j ≠ t → x.get j = y.get j := by
      intro j hj
      have h := hcell j
      rwa [get_combine_of_ne hj, get_combine_of_ne hj] at h
    -- the cell at `s` is one of the others, so it tells which of the maps `f · b` to undo
    have hself : x.get t = y.get t := by
      have h := hcell t
      rw [get_combine_self, get_combine_self, hother s hst] at h
      exact (hf (y.get s)).injective h
    apply ext_get
    intro j
    by_cases hj : j = t
    · subst hj
      exact hself
    · exact hother j hj
  · intro y
    obtain ⟨a, ha⟩ := (hf (y.get s)).surjective (y.get t)
    refine ⟨combine (fun _ _ => a) t s y, ext_get ?_⟩
    intro j
    by_cases hj : j = t
    · subst hj
      rw [get_combine_self, get_combine_self, get_combine_of_ne hst]
      exact ha
    · rw [get_combine_of_ne hj, get_combine_of_ne hj]

end Combine

theorem gate_eq_combine (A : Alphabet σ) (x : Vector σ m) (i : Fin m) (a : Nat) :
    gate A x i true a = combine A.add (place i (1 + a)) i x := rfl

theorem closing_eq_combine (A : Alphabet σ) (width : Nat) (x : Vector σ m) (i : Fin m) :
    closing A width x i = combine (fun a b => A.scale (A.add a b)) (place i (1 + width)) i x := rfl

theorem foldl_bijective {α β : Type} {f : α → β → α} (l : List β)
    (h : ∀ b ∈ l, Function.Bijective (f · b)) : Function.Bijective fun a => l.foldl f a := by
  induction l with
  | nil => exact Function.bijective_id
  | cons b l ih =>
    have hrest := ih fun c hc => h c (List.mem_cons_of_mem b hc)
    exact hrest.comp (h b List.mem_cons_self)

section Binary

variable {A : Alphabet σ} (hA : A.Binary) {width : Nat} (hm : width + 2 ≤ m)

include hA hm

theorem gate_bijective (i : Fin m) (bit : Bool) {a : Nat} (ha : a < width) :
    Function.Bijective fun x : Vector σ m => gate A x i bit a := by
  cases bit with
  | false => exact Function.bijective_id
  | true =>
    have hne : place i (1 + a) ≠ i := place_ne i (by omega) (by omega)
    simp only [gate_eq_combine]
    exact combine_bijective hA.add_bijective hne.symm

theorem closing_bijective (i : Fin m) :
    Function.Bijective fun x : Vector σ m => closing A width x i := by
  have hne : place i (1 + width) ≠ i := place_ne i (by omega) (by omega)
  simp only [closing_eq_combine]
  exact combine_bijective hA.scale_add_bijective hne.symm

theorem position_bijective (bits : Nat → Bool) (i : Fin m) :
    Function.Bijective fun x : Vector σ m => position A width bits x i := by
  have hgates : Function.Bijective fun x : Vector σ m =>
      (List.range width).foldl (fun x a => gate A x i (bits a) a) x :=
    foldl_bijective _ fun a ha => gate_bijective hA hm i (bits a) (List.mem_range.mp ha)
  exact (closing_bijective hA hm i).comp hgates

theorem sweep_bijective (bits : Nat → Nat → Bool) :
    Function.Bijective fun x : Vector σ m => sweep A width bits x :=
  foldl_bijective _ fun i _ => position_bijective hA hm (bits i.val) i

end Binary

theorem apply_bijective {A : Alphabet σ} (hA : A.Binary) (C : Convolution)
    (hm : C.width + 2 ≤ m) (seed : Seed) :
    Function.Bijective fun x : Vector σ m => apply C A seed x :=
  foldl_bijective _ fun seed _ => sweep_bijective hA hm (coefficient seed C.width)

/-! ## One cell less -/

section Short

variable {A : Alphabet σ} (hA : A.Binary) {width : Nat}

include hA

theorem position_source (bits : Nat → Bool) (x : Vector σ (width + 1)) (i : Fin (width + 1)) :
    (position A width bits x i).get i = A.zero := by
  have hself : place i (1 + width) = i := by
    rw [Nat.add_comm 1]
    exact place_size i
  rw [position, closing_eq_combine, hself]
  exact (get_combine_self _).trans (hA.scale_add_self _)

theorem sweep_last (bits : Nat → Nat → Bool) (x : Vector σ (width + 1)) :
    (sweep A width bits x).get (Fin.last width) = A.zero := by
  rw [sweep, List.finRange_succ_last, List.foldl_append]
  exact position_source hA _ _ _

end Short

theorem apply_last {A : Alphabet σ} (hA : A.Binary) (C : Convolution) (seed : Seed)
    (x : Vector σ (C.width + 1)) : (apply C A seed x).get (Fin.last C.width) = A.zero := by
  rw [apply, seeds]
  cases C.secondSweep with
  | false => exact sweep_last hA _ x
  | true => exact sweep_last hA _ _

end Recurrence

/-! ## Buffers -/

/-- What a convolution makes of the buffers of `m` cells. -/
def imageOfSize (C : Convolution) (A : Alphabet σ) (seed : Seed) (m : Nat)
    (b : {b : Buffer σ // b.size = m}) : {b : Buffer σ // b.size = m} :=
  ⟨C.image A seed b.val, (C.size_image A seed b.val).trans b.property⟩

theorem imageOfSize_bijective {A : Alphabet σ} (hA : A.Binary) (C : Convolution) (seed : Seed)
    (hm : C.width + 2 ≤ m) : Function.Bijective (C.imageOfSize A seed m) := by
  have happly := Recurrence.apply_bijective (m := m) hA C hm seed
  constructor
  · rintro ⟨a, ha⟩ ⟨b, hb⟩ hab
    obtain ⟨x, hlt, rfl⟩ := Buffer.exists_ofVector ha
    obtain ⟨y, _, rfl⟩ := Buffer.exists_ofVector hb
    have himage : C.image A seed (.ofVector x hlt) = C.image A seed (.ofVector y hlt) :=
      congrArg Subtype.val hab
    rw [image_ofVector, image_ofVector] at himage
    have hxy : x = y := happly.injective (Buffer.ofVector_injective himage)
    subst hxy
    rfl
  · rintro ⟨b, hb⟩
    obtain ⟨y, hlt, rfl⟩ := Buffer.exists_ofVector hb
    obtain ⟨x, hx⟩ := happly.surjective y
    refine ⟨⟨.ofVector x hlt, Buffer.size_ofVector x hlt⟩, Subtype.ext ?_⟩
    show C.image A seed (.ofVector x hlt) = .ofVector y hlt
    rw [image_ofVector]
    exact congrArg (Buffer.ofVector · hlt) hx

/-- In an alphabet other than the integers a convolution permutes the buffers of `width + 2` or
more cells. In a buffer of `width + 1` cells it leaves zero in the last one. -/
theorem apply_permutes_long_buffers (C : Convolution) {κ : Alphabet.Kind}
    (hκ : ∀ width, κ ≠ .integers width) (seed : Seed) :
    (∀ m, C.width + 2 ≤ m → C.HasRoom m →
      ∃ f : {b : Buffer κ.Symbol // b.size = m} → {b : Buffer κ.Symbol // b.size = m},
        Function.Bijective f ∧
        ∀ x, ∃ events, Yields (C.apply κ.alphabet seed) x.val () (f x).val events) ∧
    ∀ x : Buffer κ.Symbol, x.size = C.width + 1 →
      ∃ y events, Yields (C.apply κ.alphabet seed) x () y events ∧
        y.size = x.size ∧ y.cells.back? = some κ.alphabet.zero := by
  have hA := Alphabet.Kind.binary hκ
  constructor
  · intro m hm hroom
    refine ⟨C.imageOfSize κ.alphabet seed m, imageOfSize_bijective hA C seed hm, ?_⟩
    intro x
    exact ⟨_, apply_yields_image κ.alphabet seed (x.property.symm ▸ hroom)⟩
  · intro x hx
    have hroom : C.HasRoom x.size := by
      have hwidth := C.width_le
      apply C.hasRoom_of_lt
      simp only [maxWidth, cellLimit] at hwidth ⊢
      omega
    obtain ⟨v, hlt, rfl⟩ := Buffer.exists_ofVector hx
    refine ⟨_, _, apply_yields_image κ.alphabet seed hroom, C.size_image κ.alphabet seed _, ?_⟩
    rw [image_ofVector, Buffer.back?_ofVector, Recurrence.apply_last hA]

theorem apply_permutes_long_buffers_at_octets :
    let C : Convolution := ⟨3, true, by decide⟩
    let A := Alphabet.Kind.alphabet (.octets 2)
    let short : Buffer (Vector UInt8 2) :=
      .ofVector #v[#v[1, 2], #v[0, 255], #v[3, 3], #v[9, 0]] (by decide)
    (∀ width, Alphabet.Kind.octets 2 ≠ .integers width) ∧
      C.HasRoom 5 ∧
      (∃ f : {b : Buffer (Vector UInt8 2) // b.size = 5} →
            {b : Buffer (Vector UInt8 2) // b.size = 5},
        Function.Bijective f ∧
        ∀ x, ∃ events, Yields (C.apply A 42#128) x.val () (f x).val events) ∧
      ∃ y events, Yields (C.apply A 42#128) short () y events ∧
        y.cells.back? = some #v[0, 0] := by
  intro C A short
  have hκ : ∀ width, Alphabet.Kind.octets 2 ≠ .integers width := nofun
  obtain ⟨hlong, hshort⟩ := apply_permutes_long_buffers C hκ 42#128
  obtain ⟨y, events, hy, -, hlast⟩ := hshort short rfl
  have hroom : C.HasRoom 5 := C.hasRoom_of_lt (by decide)
  exact ⟨hκ, hroom, hlong 5 (by decide) hroom, y, events, hy, hlast⟩

end Convolution
end ExpandConvolute
