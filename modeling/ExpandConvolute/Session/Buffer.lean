import ExpandConvolute.Failure

/-!
# ExpandConvolute.Session.Buffer

Vectors of symbols as the encoder holds them. The number of cells is a size, below `2^64`. Memory
has room for fewer than `2^63` cells, so a longer vector is one of zero-sized symbols, of which
nothing is stored. A buffer is an array as far as memory goes (`held`), and beyond that a function
on its positions (`vast`).

* `size`, `get`, `set` and `ofFn` are where the two forms differ. Everything else goes through them.
* `cells` lists a buffer as an array, whichever form it has. Two buffers with the same cells are
  equal, and each operation has a lemma that says what it does to the cells.
* `take`, `drop` and `overlay` cut a buffer in two and write a changed part back. `cut` is the cut
  that an operation makes: at fault if there are too few cells.
-/

namespace ExpandConvolute

/-- `2^63`, more cells than memory has room for. -/
abbrev cellLimit : Nat := 0x8000000000000000

/-- A vector of fewer than `2^64` symbols. -/
inductive Buffer (σ : Type) where
  | held (array : Array σ) (size_lt : array.size < cellLimit)
  /-- More cells than memory has room for: the symbols take no space. -/
  | vast (size : Nat) (cell : Fin size → σ) (le_size : cellLimit ≤ size)
      (size_lt : size < sizeLimit)

namespace Buffer

variable {σ τ : Type}

def size : Buffer σ → Nat
  | held array _ => array.size
  | vast size .. => size

theorem size_lt : (b : Buffer σ) → b.size < sizeLimit
  | held _ h => Nat.lt_trans h (by decide)
  | vast _ _ _ h => h

@[inline] def get : (b : Buffer σ) → (i : Nat) → i < b.size → σ
  | held array _, i, h => array[i]
  | vast _ cell .., i, h => cell ⟨i, h⟩

def get? (b : Buffer σ) (i : Nat) : Option σ :=
  if h : i < b.size then some (b.get i h) else none

def set : (b : Buffer σ) → (i : Nat) → σ → i < b.size → Buffer σ
  | held array hs, i, a, h =>
    held (array.set i a h) (Nat.lt_of_le_of_lt (Nat.le_of_eq (Array.size_set h)) hs)
  | vast size cell hl hs, i, a, _ => vast size (fun j => if j.val = i then a else cell j) hl hs

/-- The buffer of `n` cells with the given symbols. -/
def ofFn {n : Nat} (h : n < sizeLimit) (cell : Fin n → σ) : Buffer σ :=
  if hn : n < cellLimit then
    held (Array.ofFn cell) (Nat.lt_of_le_of_lt (Nat.le_of_eq Array.size_ofFn) hn)
  else
    vast n cell (Nat.le_of_not_lt hn) h

/-! ## Cells -/

def cells : Buffer σ → Array σ
  | held array _ => array
  | vast _ cell .. => Array.ofFn cell

@[simp] theorem size_cells (b : Buffer σ) : b.cells.size = b.size := by
  cases b with
  | held => rfl
  | vast => exact Array.size_ofFn

theorem getElem?_cells (b : Buffer σ) (i : Nat) : b.cells[i]? = b.get? i := by
  cases b with
  | held array hs =>
    show array[i]? = if h : i < array.size then some array[i] else none
    split
    · rename_i h
      exact Array.getElem?_eq_getElem h
    · rename_i h
      exact Array.getElem?_eq_none (Nat.le_of_not_lt h)
  | vast size cell hl hs => exact Array.getElem?_ofFn

/-- A buffer is known by its cells: their number says which form it has. -/
theorem ext_cells {a b : Buffer σ} (h : a.cells = b.cells) : a = b := by
  have hsize : a.size = b.size := by rw [← size_cells, h, size_cells]
  cases a with
  | held array hs =>
    cases b with
    | held array' hs' =>
      cases h
      rfl
    | vast size cell hl _ =>
      have hlt : size < cellLimit := Nat.lt_of_le_of_lt (Nat.le_of_eq hsize.symm) hs
      exact absurd hl (Nat.not_le.mpr hlt)
  | vast size cell hl hs =>
    cases b with
    | held array' hs' =>
      have hlt : size < cellLimit := Nat.lt_of_le_of_lt (Nat.le_of_eq hsize) hs'
      exact absurd hl (Nat.not_le.mpr hlt)
    | vast size' cell' hl' hs' =>
      cases hsize
      have hcell : cell = cell' := by
        funext i
        have hi := congrArg (·[i.val]?) h
        simpa [cells] using hi
      rw [hcell]

theorem ext_getElem? {a b : Buffer σ} (h : ∀ i : Nat, a.cells[i]? = b.cells[i]?) : a = b :=
  ext_cells (Array.ext_getElem? h)

instance [DecidableEq σ] : DecidableEq (Buffer σ) := fun a b =>
  decidable_of_iff (a.cells = b.cells) ⟨ext_cells, congrArg cells⟩

theorem getElem?_of_lt (b : Buffer σ) {i : Nat} (h : i < b.size) :
    b.cells[i]? = some (b.get i h) := by
  rw [getElem?_cells, get?, dif_pos h]

theorem getElem?_of_le (b : Buffer σ) {i : Nat} (h : b.size ≤ i) : b.cells[i]? = none := by
  rw [getElem?_cells, get?, dif_neg (Nat.not_lt.mpr h)]

theorem lt_of_getElem? {b : Buffer σ} {i : Nat} {a : σ} (h : b.cells[i]? = some a) : i < b.size :=
  b.size_cells ▸ (Array.getElem?_eq_some_iff.mp h).1

@[simp] theorem cells_ofFn {n : Nat} (h : n < sizeLimit) (cell : Fin n → σ) :
    (ofFn h cell).cells = Array.ofFn cell := by
  rw [ofFn]
  split
  · rfl
  · rfl

@[simp] theorem size_ofFn {n : Nat} (h : n < sizeLimit) (cell : Fin n → σ) :
    (ofFn h cell).size = n := by
  rw [← size_cells, cells_ofFn, Array.size_ofFn]

theorem getElem?_ofFn {n : Nat} (h : n < sizeLimit) (cell : Fin n → σ) (i : Nat) :
    (ofFn h cell).cells[i]? = if hi : i < n then some (cell ⟨i, hi⟩) else none := by
  rw [cells_ofFn, Array.getElem?_ofFn]

@[simp] theorem size_set (b : Buffer σ) (i : Nat) (a : σ) (h : i < b.size) :
    (b.set i a h).size = b.size := by
  cases b with
  | held array hs => exact Array.size_set h
  | vast => rfl

theorem getElem?_set (b : Buffer σ) (i : Nat) (a : σ) (h : i < b.size) (j : Nat) :
    (b.set i a h).cells[j]? = if i = j then some a else b.cells[j]? := by
  cases b with
  | held array hs => exact Array.getElem?_set h
  | vast size cell hl hs =>
    have h : i < size := h
    simp only [set, cells, Array.getElem?_ofFn]
    by_cases hij : i = j
    · subst hij
      rw [dif_pos h, if_pos rfl, if_pos rfl]
    · simp only [if_neg hij, if_neg (Ne.symm hij)]

/-! ## Whole buffers -/

def ofArray? (cells : Array σ) : Option (Buffer σ) :=
  if h : cells.size < cellLimit then some (held cells h) else none

def replicate (n : Nat) (a : σ) (h : n < sizeLimit) : Buffer σ := ofFn h fun _ => a

def map (f : σ → τ) (b : Buffer σ) : Buffer τ := ofFn b.size_lt fun i => f (b.get i.val i.isLt)

def fill (b : Buffer σ) (a : σ) : Buffer σ := b.map fun _ => a

@[simp] theorem size_replicate (n : Nat) (a : σ) (h : n < sizeLimit) : (replicate n a h).size = n :=
  size_ofFn ..

@[simp] theorem cells_replicate (n : Nat) (a : σ) (h : n < sizeLimit) :
    (replicate n a h).cells = Array.replicate n a := by
  apply Array.ext_getElem?
  intro i
  rw [replicate, getElem?_ofFn, Array.getElem?_replicate]
  split
  · rfl
  · rfl

@[simp] theorem size_map (f : σ → τ) (b : Buffer σ) : (b.map f).size = b.size := size_ofFn ..

@[simp] theorem getElem?_map (f : σ → τ) (b : Buffer σ) (i : Nat) :
    (b.map f).cells[i]? = b.cells[i]?.map f := by
  rw [map, getElem?_ofFn, getElem?_cells, get?]
  split
  · rfl
  · rfl

theorem cells_map (f : σ → τ) (b : Buffer σ) : (b.map f).cells = b.cells.map f := by
  apply Array.ext_getElem?
  intro i
  rw [getElem?_map, Array.getElem?_map]

@[simp] theorem size_fill (b : Buffer σ) (a : σ) : (b.fill a).size = b.size := size_map ..

theorem cells_fill (b : Buffer σ) (a : σ) : (b.fill a).cells = Array.replicate b.size a := by
  rw [fill, cells_map, Array.map_const', size_cells]

/-! ## Parts of buffers -/

/-- The first `k` cells, or all of them if there are fewer. -/
def take (b : Buffer σ) (k : Nat) : Buffer σ :=
  ofFn (n := min k b.size) (Nat.lt_of_le_of_lt (Nat.min_le_right ..) b.size_lt) fun i =>
    b.get i.val (Nat.lt_of_lt_of_le i.isLt (Nat.min_le_right ..))

/-- The cells from position `k` on. -/
def drop (b : Buffer σ) (k : Nat) : Buffer σ :=
  ofFn (n := b.size - k) (Nat.lt_of_le_of_lt (Nat.sub_le ..) b.size_lt) fun i =>
    b.get (k + i.val) (Nat.add_lt_of_lt_sub' i.isLt)

/-- The buffer with the cells of `part` written over its own from position `k` on, as far as both
reach. -/
def overlay (b : Buffer σ) (k : Nat) (part : Buffer σ) : Buffer σ :=
  ofFn b.size_lt fun i =>
    let a := b.get i.val i.isLt
    if k ≤ i.val then (part.get? (i.val - k)).getD a else a

/-- The first `k` cells and the others. It takes at least `k` cells to make the cut. -/
def cut (b : Buffer σ) (k : Nat) : Except Fault (Buffer σ × Buffer σ) :=
  if k ≤ b.size then .ok (b.take k, b.drop k) else .error .outOfBounds

theorem cut_of_le (b : Buffer σ) {k : Nat} (h : k ≤ b.size) : b.cut k = .ok (b.take k, b.drop k) :=
  if_pos h

@[simp] theorem size_take (b : Buffer σ) (k : Nat) : (b.take k).size = min k b.size := size_ofFn ..

@[simp] theorem size_drop (b : Buffer σ) (k : Nat) : (b.drop k).size = b.size - k := size_ofFn ..

@[simp] theorem size_overlay (b : Buffer σ) (k : Nat) (part : Buffer σ) :
    (b.overlay k part).size = b.size := size_ofFn ..

end Buffer
end ExpandConvolute
