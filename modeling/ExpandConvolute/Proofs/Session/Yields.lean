import ExpandConvolute.Session.Edit

/-!
# ExpandConvolute.Proofs.Session.Yields

Successful runs of edits.

* `Yields e x a y events`: started on the buffer `x`, the edit `e` returns `a`, leaves the buffer
  `y` and adds `events` to whatever has been reported before.
* One rule for each way in which edits are put together (`pure`, `bind`, `forM_cons`, `on_suffix`,
  `on_first`, `aside`) and one for each access to the buffer.

A run of the encoder is then described by following its text, and the log never has to be carried
along. Steps that report nothing are joined by `andThen`.
-/

namespace ExpandConvolute

namespace Buffer

variable {σ : Type} {m : Nat}

/-- The buffer whose cells are those of a vector. -/
def ofVector (x : Vector σ m) (h : m < sizeLimit) : Buffer σ := ofFn h x.get

def toVector (b : Buffer σ) : Vector σ b.size := ⟨b.cells, b.size_cells⟩

@[simp] theorem size_ofVector (x : Vector σ m) (h : m < sizeLimit) : (ofVector x h).size = m :=
  size_ofFn ..

@[simp] theorem cells_ofVector (x : Vector σ m) (h : m < sizeLimit) :
    (ofVector x h).cells = x.toArray := by
  apply Array.ext_getElem?
  intro i
  rw [ofVector, getElem?_ofFn, Vector.getElem?_toArray]
  by_cases hi : i < m
  · rw [dif_pos hi, Vector.getElem?_eq_getElem hi]
    rfl
  · rw [dif_neg hi, Vector.getElem?_eq_none (Nat.le_of_not_lt hi)]

theorem getElem?_toVector (b : Buffer σ) (i : Nat) : b.toVector[i]? = b.cells[i]? :=
  Vector.getElem?_toArray.symm

theorem ofVector_toVector (b : Buffer σ) : ofVector b.toVector b.size_lt = b :=
  ext_cells (cells_ofVector b.toVector b.size_lt)

/-- What holds of a vector holds of the cells of its buffer. -/
theorem toVector_ofVector {p : {n : Nat} → Vector σ n → Prop} {x : Vector σ m}
    {h : m < sizeLimit} (hx : p x) : p (ofVector x h).toVector := by
  have hcells : ∀ {n : Nat} (y : Vector σ n), n = m → y.toArray = x.toArray → p y := by
    rintro _ y rfl hy
    rwa [Vector.toArray_inj.mp hy]
  exact hcells _ (size_ofVector x h) (cells_ofVector x h)

theorem exists_ofVector {b : Buffer σ} (h : b.size = m) :
    ∃ (x : Vector σ m) (hm : m < sizeLimit), ofVector x hm = b := by
  subst h
  exact ⟨b.toVector, b.size_lt, b.ofVector_toVector⟩

theorem ofVector_injective {x y : Vector σ m} {h : m < sizeLimit}
    (hxy : ofVector x h = ofVector y h) : x = y := by
  have hcells := congrArg cells hxy
  rw [cells_ofVector, cells_ofVector] at hcells
  exact Vector.toArray_inj.mp hcells

theorem getElem?_ofVector (x : Vector σ m) (h : m < sizeLimit) (i : Nat) :
    (ofVector x h).cells[i]? = x[i]? := by
  rw [cells_ofVector, Vector.getElem?_toArray]

theorem get_ofVector (x : Vector σ m) (h : m < sizeLimit) {i : Nat}
    (hi : i < (ofVector x h).size) :
    (ofVector x h).get i hi = x.get ⟨i, size_ofVector x h ▸ hi⟩ := by
  have hcell := getElem?_ofVector x h i
  rw [getElem?_of_lt _ hi, Vector.getElem?_eq_getElem (size_ofVector x h ▸ hi)] at hcell
  exact Option.some.inj hcell

theorem set_ofVector (x : Vector σ m) (h : m < sizeLimit) {i : Nat} (a : σ)
    (hi : i < (ofVector x h).size) :
    (ofVector x h).set i a hi = ofVector (x.set i a (size_ofVector x h ▸ hi)) h := by
  apply ext_getElem?
  intro j
  rw [getElem?_set, getElem?_ofVector, getElem?_ofVector, Vector.getElem?_set]

theorem map_ofVector {τ : Type} (f : σ → τ) (x : Vector σ m) (h : m < sizeLimit) :
    (ofVector x h).map f = ofVector (x.map f) h := by
  apply ext_cells
  rw [cells_map, cells_ofVector, cells_ofVector, Vector.toArray_map]

theorem back?_ofVector {n : Nat} (x : Vector σ (n + 1)) (h : n + 1 < sizeLimit) :
    (ofVector x h).cells.back? = some (x.get (Fin.last n)) := by
  rw [Array.back?_eq_getElem?, getElem?_ofVector, size_cells, size_ofVector, Nat.add_sub_cancel]
  exact Vector.getElem?_eq_getElem _

end Buffer

namespace Edit

variable {σ α β : Type}

def Yields (e : Edit σ α) (x : Buffer σ) (a : α) (y : Buffer σ) (events : List Event) : Prop :=
  ∀ log, e ⟨x, log⟩ = .ok a ⟨y, log ++ events⟩

namespace Yields

theorem pure (a : α) (x : Buffer σ) : Yields (Pure.pure a) x a x [] := by
  intro log
  rw [List.append_nil]
  rfl

theorem bind {e : Edit σ α} {f : α → Edit σ β} {x y z : Buffer σ} {a : α} {b : β}
    {events events' : List Event} (he : Yields e x a y events)
    (hf : Yields (f a) y b z events') : Yields (e >>= f) x b z (events ++ events') := by
  intro log
  show EStateM.bind e f _ = _
  simp only [EStateM.bind, he log, hf (log ++ events), List.append_assoc]

theorem andThen {e : Edit σ α} {f : α → Edit σ β} {x y z : Buffer σ} {a : α} {b : β}
    {events : List Event} (he : Yields e x a y []) (hf : Yields (f a) y b z events) :
    Yields (e >>= f) x b z events := he.bind hf

/-- A run leaves one buffer. -/
theorem buffer_unique {e : Edit σ α} {x y y' : Buffer σ} {a a' : α} {events events' : List Event}
    (h : Yields e x a y events) (h' : Yields e x a' y' events') : y = y' := by
  have hrun := h []
  rw [h' []] at hrun
  cases hrun
  rfl

/-! ## Accesses -/

theorem emit (event : Event) (x : Buffer σ) : Yields (Edit.emit event) x () x [event] := by
  intro log
  rfl

theorem contents (x : Buffer σ) : Yields Edit.contents x x x [] := by
  intro log
  rw [List.append_nil]
  rfl

theorem extent (x : Buffer σ) : Yields Edit.extent x x.size x [] := by
  intro log
  rw [List.append_nil]
  rfl

theorem change (f : Buffer σ → Buffer σ) (x : Buffer σ) :
    Yields (Edit.change f) x () (f x) [] := by
  intro log
  rw [List.append_nil]
  rfl

theorem advance {position count : Nat} (h : position + count < sizeLimit) (x : Buffer σ) :
    Yields (Edit.advance position count) x (position + count) x [] := by
  intro log
  rw [List.append_nil, Edit.advance, addSize, if_pos h]
  rfl

theorem read {x : Buffer σ} {i : Nat} (h : i < x.size) :
    Yields (Edit.read i) x (x.get i h) x [] := by
  intro log
  rw [List.append_nil, Edit.read, dif_pos h]

theorem write {x : Buffer σ} {i : Nat} (h : i < x.size) (a : σ) :
    Yields (Edit.write i a) x () (x.set i a h) [] := by
  intro log
  rw [List.append_nil]
  simp only [Edit.write, dif_pos h]

theorem or_fault {r : Except Fault α} {a : α} (h : r = .ok a) (x : Buffer σ) :
    Yields (Edit.orFault r) x a x [] := by
  subst h
  exact pure a x

theorem or_refuse {r : Except Refusal α} {a : α} (h : r = .ok a) (x : Buffer σ) :
    Yields (Edit.orRefuse r) x a x [] := by
  subst h
  exact pure a x

theorem cut (x : Buffer σ) {b : Buffer σ} {k : Nat} (h : k ≤ b.size) :
    Yields (Edit.orFault (b.cut k)) x (b.take k, b.drop k) x [] := or_fault (b.cut_of_le h) x

theorem require_length {expected actual : Nat} (h : expected = actual) (x : Buffer σ) :
    Yields (Edit.orRefuse (requireLength expected actual)) x () x [] :=
  or_refuse (if_pos h) x

/-! ## Parts of the buffer -/

theorem on_part {e : Edit σ α} {x part y : Buffer σ} {a : α} {events : List Event} (k : Nat)
    (he : Yields e part a y events) : Yields (Edit.onPart k part e) x a (x.overlay k y) events := by
  intro log
  simp only [Edit.onPart, he log]

theorem on_suffix {e : Edit σ α} {x y : Buffer σ} {a : α} {k : Nat} {events : List Event}
    (hk : k ≤ x.size) (he : Yields e (x.drop k) a y events) :
    Yields (Edit.onSuffix k e) x a (x.overlay k y) events :=
  (contents x).andThen ((cut x hk).andThen (on_part k he))

theorem on_first {e : Edit σ α} {x y : Buffer σ} {a : α} {k : Nat} {events : List Event}
    (hk : k ≤ x.size) (he : Yields e (x.take k) a y events) :
    Yields (Edit.onFirst k e) x a (x.overlay 0 y) events :=
  (contents x).andThen ((cut x hk).andThen (on_part 0 he))

/-! ## Other buffers -/

theorem aside {e : Edit σ Unit} {start x y : Buffer σ} {events : List Event}
    (he : Yields e start () y events) : Yields (Edit.aside start e) x y x events := by
  intro log
  simp only [Edit.aside, he log]

theorem onto {e : Edit σ Unit} {start y : Buffer σ} {events : List Event}
    (he : Yields e start () y events) : Edit.onto start e = .ok y := by
  simp only [Edit.onto, he []]

/-! ## Lists of edits -/

theorem forM_nil (f : α → Edit σ PUnit) (x : Buffer σ) : Yields ([].forM f) x ⟨⟩ x [] :=
  pure PUnit.unit x

theorem forM_cons {f : α → Edit σ PUnit} {a : α} {as : List α} {x y z : Buffer σ}
    {events events' : List Event} (h : Yields (f a) x ⟨⟩ y events)
    (hs : Yields (as.forM f) y ⟨⟩ z events') :
    Yields ((a :: as).forM f) x ⟨⟩ z (events ++ events') := h.bind hs

theorem emit_all (events : List Event) (x : Buffer σ) :
    Yields (events.forM Edit.emit) x ⟨⟩ x events := by
  induction events with
  | nil => exact forM_nil Edit.emit x
  | cons event events ih => exact forM_cons (emit event x) ih

end Yields
end Edit
end ExpandConvolute
