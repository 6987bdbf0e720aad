import ExpandConvolute.Proofs.Expansion.Sums

/-!
# ExpandConvolute.Proofs.Expansion.Rows

The matrix of an expansion by rows. Listing the matrix and multiplying by it both go through the
picks in draw order, where the rows of a group are interleaved; neither the list nor the sum of a
row sees anything of a pick but those of its own row, so both can be read off `rowOf`.

* `rows_ok`: row `i` of the list is `rowOf E.sources i`.
* `getElem?_sums`: cell `i` of the sums is the sum over `rowOf E.sources i`, from left to right.
* `expand_sums_rows`: what `expand` adds up is what `rows` lists. No law of the alphabet is needed.
-/

namespace ExpandConvolute

open Edit (Yields)

variable {σ : Type}

namespace Expansion

/-- The sources that row `i` has among some picks, in draw order. -/
def rowOf (picks : List Pick) (i : Nat) : List Nat :=
  (picks.filter fun pick => pick.row = i).map Pick.source

@[simp] theorem rowOf_nil (i : Nat) : rowOf [] i = [] := rfl

theorem rowOf_cons (pick : Pick) (picks : List Pick) (i : Nat) :
    rowOf (pick :: picks) i =
      if pick.row = i then pick.source :: rowOf picks i else rowOf picks i := by
  by_cases h : pick.row = i
  · simp [rowOf, h]
  · simp [rowOf, h]

@[simp] theorem rowOf_append (picks picks' : List Pick) (i : Nat) :
    rowOf (picks ++ picks') i = rowOf picks i ++ rowOf picks' i := by
  simp [rowOf]

theorem mem_rowOf {picks : List Pick} {i s : Nat} : s ∈ rowOf picks i ↔ ⟨i, s⟩ ∈ picks := by
  induction picks with
  | nil => simp
  | cons pick picks ih =>
    obtain ⟨row, source⟩ := pick
    rw [rowOf_cons]
    by_cases h : row = i
    · simp [h, ih]
    · simp [h, ih, Ne.symm h]

/-! ## Listing -/

theorem getElem?_foldl_push (picks : List Pick) (i : Nat) :
    ∀ rows : Array (Array Nat),
      (picks.foldl (fun rows pick => rows.modify pick.row (·.push pick.source)) rows)[i]? =
        rows[i]?.map (· ++ (rowOf picks i).toArray) := by
  induction picks with
  | nil =>
    intro rows
    simp
  | cons pick picks ih =>
    intro rows
    rw [List.foldl_cons, ih, Array.getElem?_modify, rowOf_cons]
    by_cases h : pick.row = i
    · simp only [if_pos h, Option.map_map]
      congr 1
      funext row
      simp
    · simp only [if_neg h]

theorem rows_ok (E : Expansion) :
    E.rows = .ok (Array.ofFn fun i : Fin E.messageSize => (rowOf E.sources i.val).toArray) := by
  show (E.picks >>= _) = _
  rw [E.picks_eq_sources]
  apply congrArg Except.ok
  apply Array.ext_getElem?
  intro i
  rw [List.foldl_toArray, getElem?_foldl_push, Array.getElem?_replicate, Array.getElem?_ofFn]
  by_cases h : i < E.messageSize
  · simp [h]
  · simp [h]

/-! ## Adding up -/

/-- What the sum of a row is started from, if the cell holds `a`. -/
def Mode.initial (A : Alphabet σ) : Mode → σ → σ
  | .add, a => a
  | .overwrite, _ => A.zero

theorem Mode.getElem?_start (A : Alphabet σ) (mode : Mode) (x : Buffer σ) (i : Nat) :
    (mode.start A x).cells[i]? = x.cells[i]?.map (mode.initial A) := by
  cases mode with
  | add => cases h : x.cells[i]? <;> exact h
  | overwrite => exact x.getElem?_map (fun _ => A.zero) i

/-- The symbols that a row names, as far as they exist. -/
def symbolsOf (input : Buffer σ) (row : List Nat) : List σ := row.filterMap (input.cells[·]?)

theorem map_some_symbolsOf {input : Buffer σ} {row : List Nat} (h : ∀ s ∈ row, s < input.size) :
    (symbolsOf input row).map some = row.map (input.cells[·]?) := by
  induction row with
  | nil => rfl
  | cons s row ih =>
    obtain ⟨b, hb⟩ : ∃ b, input.cells[s]? = some b :=
      ⟨_, input.getElem?_of_lt (h s List.mem_cons_self)⟩
    have hrest := ih fun t ht => h t (List.mem_cons_of_mem s ht)
    rw [symbolsOf, List.filterMap_cons_some hb, List.map_cons, List.map_cons, hb]
    exact congrArg _ hrest

theorem getElem?_foldl_absorbed (A : Alphabet σ) (input : Buffer σ) (picks : List Pick) (i : Nat) :
    ∀ x : Buffer σ,
      (picks.foldl (absorbed A input) x).cells[i]? =
        x.cells[i]?.map ((symbolsOf input (rowOf picks i)).foldl A.add) := by
  induction picks with
  | nil =>
    intro x
    simp [symbolsOf]
  | cons pick picks ih =>
    intro x
    rw [List.foldl_cons, ih, absorbed, rowOf_cons]
    cases hb : input.cells[pick.source]? with
    | none =>
      have hskip : symbolsOf input (pick.source :: rowOf picks i) =
          symbolsOf input (rowOf picks i) := List.filterMap_cons_none hb
      dsimp only
      split
      · rw [hskip]
      · rfl
    | some b =>
      have hadd : symbolsOf input (pick.source :: rowOf picks i) =
          b :: symbolsOf input (rowOf picks i) := List.filterMap_cons_some hb
      dsimp only
      rw [Buffer.getElem?_modify]
      split
      · rw [hadd, Option.map_map]
        rfl
      · rfl

theorem getElem?_sums (E : Expansion) (A : Alphabet σ) (input x : Buffer σ) (i : Nat) :
    (E.sums A input x).cells[i]? =
      x.cells[i]?.map ((symbolsOf input (rowOf E.sources i)).foldl A.add) :=
  getElem?_foldl_absorbed A input E.sources i x

/-- In a lawful alphabet the sums on top of a buffer are the buffer and the sums on top of zeros. -/
theorem sums_eq_zipWith {A : Alphabet σ} (hA : A.Lawful) (E : Expansion) (input x : Buffer σ) :
    E.sums A input x = .zipWith A.add x (E.sums A input (x.fill A.zero)) := by
  apply Buffer.ext_getElem?
  intro i
  rw [Buffer.getElem?_zipWith, getElem?_sums, getElem?_sums, Buffer.fill, Buffer.getElem?_map]
  cases x.cells[i]? with
  | none => rfl
  | some a => exact congrArg some (hA.foldl_add _ a)

/-- Expanding leaves in every cell the sum of the symbols that its row lists, from left to right,
on top of what the cell has held or of zero. -/
theorem expand_sums_rows (E : Expansion) (A : Alphabet σ) (mode : Mode) {input x : Buffer σ}
    (hinput : input.size = E.sourceSize) (hx : x.size = E.messageSize) :
    ∃ rows y, E.rows = .ok rows ∧ rows.size = E.messageSize ∧
      Yields (E.expand A mode input) x () y [] ∧ y.size = E.messageSize ∧
      ∀ (i : Nat) (a : σ), x.cells[i]? = some a →
        ∃ (row : Array Nat) (symbols : List σ), rows[i]? = some row ∧
          row.toList.map (input.cells[·]?) = symbols.map some ∧
          y.cells[i]? = some (symbols.foldl A.add (mode.initial A a)) := by
  refine ⟨_, _, E.rows_ok, Array.size_ofFn, E.expand_yields A mode hinput hx, ?_, ?_⟩
  · rw [size_sums, Mode.size_start, hx]
  · intro i a ha
    have hi : i < E.messageSize := hx ▸ Buffer.lt_of_getElem? ha
    have hinside : ∀ s ∈ rowOf E.sources i, s < input.size := by
      intro s hs
      rw [hinput]
      exact (E.sources_inside _ (mem_rowOf.mp hs)).2
    refine ⟨(rowOf E.sources i).toArray, symbolsOf input (rowOf E.sources i), ?_,
      (map_some_symbolsOf hinside).symm, ?_⟩
    · rw [Array.getElem?_ofFn, dif_pos hi]
    · rw [getElem?_sums, Mode.getElem?_start, ha]
      rfl

theorem expand_sums_rows_at_shape :
    let E : Expansion := ⟨9, 4, 3, true, 5#128, by decide, by decide⟩
    let input : Buffer Bool := .ofVector #v[true, false, true, true] (by decide)
    let x : Buffer Bool := .ofVector (Vector.replicate 9 true) (by decide)
    input.size = E.sourceSize ∧ x.size = E.messageSize ∧
      ∃ rows y, E.rows = .ok rows ∧ Yields (E.expand .bits .overwrite input) x () y [] ∧
        ∃ (row : Array Nat) (symbols : List Bool), rows[8]? = some row ∧
          row.toList.map (input.cells[·]?) = symbols.map some ∧
          y.cells[8]? = some (symbols.foldl xor false) := by
  intro E input x
  have hinput : input.size = E.sourceSize := rfl
  have hx : x.size = E.messageSize := rfl
  obtain ⟨rows, y, hrows, -, hy, -, hcells⟩ := expand_sums_rows E .bits .overwrite hinput hx
  exact ⟨hinput, hx, rows, y, hrows, hy, hcells 8 true rfl⟩

end Expansion
end ExpandConvolute
