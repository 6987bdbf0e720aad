import ExpandConvolute.Session.Buffer

/-!
# ExpandConvolute.Proofs.Session.Parts

Cutting buffers and putting them together again.

* `take`, `drop` and `overlay` cell by cell; a part that is written back where it was cut out
  changes nothing, and what has been written over the beginning is found there.
* Each of them commutes with `map`. Sums of buffers are `zipWith`, which is a `map` over their
  pairs (`map_zip`), so the lemmas about `map` are all that algebraic laws need.
-/

namespace ExpandConvolute
namespace Buffer

variable {σ τ υ : Type}

/-! ## Cells of parts -/

theorem getElem?_take (b : Buffer σ) (k i : Nat) :
    (b.take k).cells[i]? = if i < k then b.cells[i]? else none := by
  rw [take, getElem?_ofFn]
  by_cases hk : i < k
  · by_cases hb : i < b.size
    · rw [dif_pos (Nat.lt_min.mpr ⟨hk, hb⟩), if_pos hk, b.getElem?_of_lt hb]
    · rw [dif_neg (fun h => hb (Nat.lt_min.mp h).2), if_pos hk,
        b.getElem?_of_le (Nat.le_of_not_lt hb)]
  · rw [dif_neg (fun h => hk (Nat.lt_min.mp h).1), if_neg hk]

theorem getElem?_drop (b : Buffer σ) (k i : Nat) : (b.drop k).cells[i]? = b.cells[k + i]? := by
  rw [drop, getElem?_ofFn]
  by_cases hb : i < b.size - k
  · rw [dif_pos hb, b.getElem?_of_lt (Nat.add_lt_of_lt_sub' hb)]
  · rw [dif_neg hb, b.getElem?_of_le (by omega)]

theorem getElem?_overlay (b part : Buffer σ) (k i : Nat) :
    (b.overlay k part).cells[i]? =
      b.cells[i]?.map fun a => if k ≤ i then part.cells[i - k]?.getD a else a := by
  rw [overlay, getElem?_ofFn]
  by_cases hb : i < b.size
  · rw [dif_pos hb, b.getElem?_of_lt hb, part.getElem?_cells]
    rfl
  · rw [dif_neg hb, b.getElem?_of_le (Nat.le_of_not_lt hb)]
    rfl

theorem getElem?_overlay_before (b part : Buffer σ) {k i : Nat} (h : i < k) :
    (b.overlay k part).cells[i]? = b.cells[i]? := by
  rw [getElem?_overlay]
  simp only [if_neg (Nat.not_le_of_lt h), Option.map_id_fun', id]

theorem getElem?_overlay_within (b part : Buffer σ) {k i : Nat} (hk : k ≤ i)
    (hp : i - k < part.size) (hb : i < b.size) :
    (b.overlay k part).cells[i]? = part.cells[i - k]? := by
  rw [getElem?_overlay, b.getElem?_of_lt hb, part.getElem?_of_lt hp]
  simp only [if_pos hk, Option.getD_some, Option.map_some]

theorem getElem?_overlay_after (b part : Buffer σ) {k i : Nat} (hp : part.size ≤ i - k) :
    (b.overlay k part).cells[i]? = b.cells[i]? := by
  rw [getElem?_overlay, part.getElem?_of_le hp]
  simp only [Option.getD_none, ite_self, Option.map_id_fun', id]

theorem drop_zero (b : Buffer σ) : b.drop 0 = b := by
  apply ext_getElem?
  intro i
  rw [getElem?_drop, Nat.zero_add]

/-- A part that covers the whole buffer replaces it. -/
theorem overlay_all (b part : Buffer σ) (h : part.size = b.size) : b.overlay 0 part = part := by
  apply ext_getElem?
  intro i
  by_cases hb : i < b.size
  · exact getElem?_overlay_within b part (Nat.zero_le i) (h ▸ hb) hb
  · have hp : part.size ≤ i := h ▸ Nat.le_of_not_lt hb
    rw [getElem?_overlay_after b part hp, b.getElem?_of_le (Nat.le_of_not_lt hb),
      part.getElem?_of_le hp]

theorem overlay_drop (b : Buffer σ) (k : Nat) : b.overlay k (b.drop k) = b := by
  apply ext_getElem?
  intro i
  by_cases hk : k ≤ i
  · by_cases hb : i < b.size
    · rw [getElem?_overlay_within _ _ hk (by rw [size_drop]; omega) hb, getElem?_drop,
        Nat.add_sub_of_le hk]
    · exact getElem?_overlay_after _ _ (by rw [size_drop]; omega)
  · exact getElem?_overlay_before _ _ (Nat.lt_of_not_le hk)

theorem take_overlay_le (b part : Buffer σ) {j k : Nat} (h : j ≤ k) :
    (b.overlay k part).take j = b.take j := by
  apply ext_getElem?
  intro i
  rw [getElem?_take, getElem?_take]
  split
  · exact getElem?_overlay_before _ _ (by omega)
  · rfl

theorem take_overlay_zero (b part : Buffer σ) (h : part.size ≤ b.size) :
    (b.overlay 0 part).take part.size = part := by
  apply ext_getElem?
  intro i
  rw [getElem?_take]
  split
  · rename_i hi
    exact getElem?_overlay_within b part (Nat.zero_le i) hi (Nat.lt_of_lt_of_le hi h)
  · rename_i hi
    exact (part.getElem?_of_le (Nat.le_of_not_lt hi)).symm

theorem drop_overlay (b part : Buffer σ) {k : Nat} (h : k + part.size = b.size) :
    (b.overlay k part).drop k = part := by
  apply ext_getElem?
  intro i
  rw [getElem?_drop]
  by_cases hi : i < part.size
  · rw [getElem?_overlay_within b part (Nat.le_add_right k i) (by omega) (by omega),
      Nat.add_sub_cancel_left]
  · rw [part.getElem?_of_le (Nat.le_of_not_lt hi)]
    apply getElem?_of_le
    rw [size_overlay]
    omega

/-- A part that ends before `k` does not change what begins there. -/
theorem drop_overlay_zero (b part : Buffer σ) {k : Nat} (h : part.size ≤ k) :
    (b.overlay 0 part).drop k = b.drop k := by
  apply ext_getElem?
  intro i
  rw [getElem?_drop, getElem?_drop]
  exact getElem?_overlay_after b part (by omega)

theorem cells_take (b : Buffer σ) (k : Nat) : (b.take k).cells = b.cells.extract 0 k := by
  apply Array.ext_getElem?
  intro i
  rw [getElem?_take, Array.getElem?_extract, Nat.zero_add, Nat.sub_zero, size_cells]
  by_cases hk : i < k
  · by_cases hb : i < b.size
    · rw [if_pos hk, if_pos (Nat.lt_min.mpr ⟨hk, hb⟩)]
    · rw [if_pos hk, if_neg (fun h => hb (Nat.lt_min.mp h).2),
        b.getElem?_of_le (Nat.le_of_not_lt hb)]
  · rw [if_neg hk, if_neg (fun h => hk (Nat.lt_min.mp h).1)]

theorem cells_drop (b : Buffer σ) (k : Nat) : (b.drop k).cells = b.cells.extract k b.size := by
  apply Array.ext_getElem?
  intro i
  rw [getElem?_drop, Array.getElem?_extract, size_cells, Nat.min_self]
  by_cases hb : i < b.size - k
  · rw [if_pos hb]
  · rw [if_neg hb, b.getElem?_of_le (by omega)]

/-- A buffer whose beginning has been written over. -/
theorem cells_overlay_zero (b part : Buffer σ) (h : part.size ≤ b.size) :
    (b.overlay 0 part).cells = part.cells ++ b.cells.extract part.size b.size := by
  apply Array.ext_getElem?
  intro i
  rw [← cells_drop, Array.getElem?_append, size_cells]
  split
  · rename_i hi
    exact getElem?_overlay_within b part (Nat.zero_le i) hi (Nat.lt_of_lt_of_le hi h)
  · rename_i hi
    have hp : part.size ≤ i := Nat.le_of_not_lt hi
    rw [getElem?_overlay_after b part hp, getElem?_drop, Nat.add_sub_of_le hp]

theorem take_append_drop (b : Buffer σ) {k : Nat} (h : k ≤ b.size) :
    (b.take k).cells ++ (b.drop k).cells = b.cells := by
  rw [cells_take, cells_drop, Array.extract_append_extract, Nat.min_eq_left (Nat.zero_le k),
    Nat.max_eq_right h, ← size_cells]
  exact Array.extract_size

/-! ## Parts of images -/

theorem map_take (f : σ → τ) (b : Buffer σ) (k : Nat) : (b.take k).map f = (b.map f).take k := by
  apply ext_getElem?
  intro i
  rw [getElem?_map, getElem?_take, getElem?_take, getElem?_map]
  split
  · rfl
  · rfl

theorem map_drop (f : σ → τ) (b : Buffer σ) (k : Nat) : (b.drop k).map f = (b.map f).drop k := by
  apply ext_getElem?
  intro i
  rw [getElem?_map, getElem?_drop, getElem?_drop, getElem?_map]

theorem map_overlay (f : σ → τ) (b part : Buffer σ) (k : Nat) :
    (b.overlay k part).map f = (b.map f).overlay k (part.map f) := by
  apply ext_getElem?
  intro i
  simp only [getElem?_map, getElem?_overlay, Option.map_map]
  congr 1
  funext a
  by_cases hk : k ≤ i
  · simp only [Function.comp_apply, if_pos hk, Option.getD_map]
  · simp only [Function.comp_apply, if_neg hk]

/-! ## Cell by cell -/

/-- The buffer of the values of `f` at the cells of two buffers, as far as both reach. -/
def zipWith (f : σ → τ → υ) (a : Buffer σ) (b : Buffer τ) : Buffer υ :=
  ofFn (n := min a.size b.size) (Nat.lt_of_le_of_lt (Nat.min_le_left ..) a.size_lt) fun i =>
    f (a.get i.val (Nat.lt_of_lt_of_le i.isLt (Nat.min_le_left ..)))
      (b.get i.val (Nat.lt_of_lt_of_le i.isLt (Nat.min_le_right ..)))

def zip (a : Buffer σ) (b : Buffer τ) : Buffer (σ × τ) := zipWith Prod.mk a b

@[simp] theorem size_zipWith (f : σ → τ → υ) (a : Buffer σ) (b : Buffer τ) :
    (zipWith f a b).size = min a.size b.size := size_ofFn ..

theorem getElem?_zipWith (f : σ → τ → υ) (a : Buffer σ) (b : Buffer τ) (i : Nat) :
    (zipWith f a b).cells[i]? =
      match a.cells[i]?, b.cells[i]? with
      | some a, some b => some (f a b)
      | _, _ => none := by
  rw [zipWith, getElem?_ofFn]
  by_cases ha : i < a.size
  · by_cases hb : i < b.size
    · rw [dif_pos (Nat.lt_min.mpr ⟨ha, hb⟩), a.getElem?_of_lt ha, b.getElem?_of_lt hb]
    · rw [dif_neg (fun h => hb (Nat.lt_min.mp h).2), a.getElem?_of_lt ha,
        b.getElem?_of_le (Nat.le_of_not_lt hb)]
  · rw [dif_neg (fun h => ha (Nat.lt_min.mp h).1), a.getElem?_of_le (Nat.le_of_not_lt ha)]

theorem cells_zipWith (f : σ → τ → υ) (a : Buffer σ) (b : Buffer τ) :
    (zipWith f a b).cells = Array.zipWith f a.cells b.cells := by
  apply Array.ext_getElem?
  intro i
  rw [getElem?_zipWith]
  exact Array.getElem?_zipWith.symm

theorem map_zip (f : σ → τ → υ) (a : Buffer σ) (b : Buffer τ) :
    (zip a b).map (fun p => f p.1 p.2) = zipWith f a b := by
  apply ext_cells
  rw [cells_map, zip, cells_zipWith, cells_zipWith]
  exact Array.map_zipWith ..

theorem map_fst_zip (a : Buffer σ) (b : Buffer τ) (h : a.size = b.size) :
    (zip a b).map Prod.fst = a := by
  apply ext_cells
  rw [cells_map, zip, cells_zipWith]
  exact Array.map_fst_zip (by rw [size_cells, size_cells]; exact Nat.le_of_eq h)

theorem map_snd_zip (a : Buffer σ) (b : Buffer τ) (h : a.size = b.size) :
    (zip a b).map Prod.snd = b := by
  apply ext_cells
  rw [cells_map, zip, cells_zipWith]
  exact Array.map_snd_zip (by rw [size_cells, size_cells]; exact Nat.le_of_eq h.symm)

theorem zipWith_map_left {ρ : Type} (f : σ → τ → υ) (g : ρ → σ) (a : Buffer ρ) (b : Buffer τ) :
    zipWith f (a.map g) b = zipWith (fun p q => f (g p) q) a b := by
  apply ext_cells
  rw [cells_zipWith, cells_zipWith, cells_map]
  exact Array.zipWith_map_left ..

theorem map_eq_zipWith (f : σ → τ → υ) (b : Buffer (σ × τ)) :
    b.map (fun p => f p.1 p.2) = zipWith f (b.map Prod.fst) (b.map Prod.snd) := by
  apply ext_cells
  rw [cells_zipWith, cells_map, cells_map, cells_map, Array.zipWith_map, Array.zipWith_self]

end Buffer
end ExpandConvolute
