import ExpandConvolute.Expansion.Expand
import ExpandConvolute.Proofs.Alphabet.Morphism
import ExpandConvolute.Proofs.Expansion.Picks
import ExpandConvolute.Proofs.Session.Parts
import ExpandConvolute.Proofs.Session.Yields

/-!
# ExpandConvolute.Proofs.Expansion.Sums

What an expansion makes of a buffer, as a function: the fold of `absorbed` over the sources of the
matrix.

* `expand_yields`: on buffers of the right lengths, expanding succeeds with these sums, in either
  mode and without reporting anything.
* `sums_map`: sums commute with morphisms of alphabets.
-/

namespace ExpandConvolute

open Edit (Yields)

variable {σ τ : Type}

namespace Buffer

/-- The buffer with `f` applied to the symbol at position `i`, if there is one. -/
def modify (b : Buffer σ) (i : Nat) (f : σ → σ) : Buffer σ :=
  if h : i < b.size then b.set i (f (b.get i h)) h else b

theorem modify_of_lt (b : Buffer σ) {i : Nat} (h : i < b.size) (f : σ → σ) :
    b.modify i f = b.set i (f (b.get i h)) h := dif_pos h

@[simp] theorem size_modify (b : Buffer σ) (i : Nat) (f : σ → σ) :
    (b.modify i f).size = b.size := by
  rw [modify]
  split
  · exact b.size_set ..
  · rfl

theorem getElem?_modify (b : Buffer σ) (i : Nat) (f : σ → σ) (j : Nat) :
    (b.modify i f).cells[j]? = if i = j then b.cells[j]?.map f else b.cells[j]? := by
  by_cases h : i < b.size
  · rw [b.modify_of_lt h, getElem?_set]
    by_cases hij : i = j
    · subst hij
      rw [if_pos rfl, if_pos rfl, b.getElem?_of_lt h]
      rfl
    · rw [if_neg hij, if_neg hij]
  · rw [modify, dif_neg h]
    by_cases hij : i = j
    · subst hij
      rw [if_pos rfl, b.getElem?_of_le (Nat.le_of_not_lt h)]
      rfl
    · rw [if_neg hij]

theorem map_modify {h : σ → τ} {f : σ → σ} {g : τ → τ} (hfg : ∀ a, h (f a) = g (h a))
    (b : Buffer σ) (i : Nat) : (b.modify i f).map h = (b.map h).modify i g := by
  have hcomp : h ∘ f = g ∘ h := funext hfg
  apply ext_getElem?
  intro j
  rw [getElem?_map, getElem?_modify, getElem?_modify, getElem?_map]
  split
  · rw [Option.map_map, Option.map_map, hcomp]
  · rfl

end Buffer

namespace Expansion

/-- All sources of all rows, in draw order. There is never a fault to report here. -/
def sources (E : Expansion) : List Pick :=
  match E.picks with
  | .ok picks => picks.toList
  | .error _ => []

theorem picks_eq_sources (E : Expansion) : E.picks = .ok E.sources.toArray := by
  obtain ⟨picks, hpicks, -⟩ := E.picks_ok
  rw [sources, hpicks]

theorem sources_inside (E : Expansion) : ∀ pick ∈ E.sources, pick.Inside E := by
  obtain ⟨picks, hpicks, hinside⟩ := E.picks_ok
  rw [sources, hpicks]
  exact hinside

/-- The buffer with the source symbol of a pick added to its row. -/
def absorbed (A : Alphabet σ) (input x : Buffer σ) (pick : Pick) : Buffer σ :=
  match input.cells[pick.source]? with
  | none => x
  | some b => x.modify pick.row (A.add · b)

/-- The buffer with the sums of its rows added. -/
def sums (E : Expansion) (A : Alphabet σ) (input x : Buffer σ) : Buffer σ :=
  E.sources.foldl (absorbed A input) x

/-- What the sums are added to. -/
def Mode.start (A : Alphabet σ) : Mode → Buffer σ → Buffer σ
  | .add, x => x
  | .overwrite, x => x.fill A.zero

@[simp] theorem size_absorbed (A : Alphabet σ) (input x : Buffer σ) (pick : Pick) :
    (absorbed A input x pick).size = x.size := by
  rw [absorbed]
  split
  · rfl
  · exact x.size_modify _ _

theorem size_foldl_absorbed (A : Alphabet σ) (input : Buffer σ) (picks : List Pick) :
    ∀ x : Buffer σ, (picks.foldl (absorbed A input) x).size = x.size := by
  induction picks with
  | nil =>
    intro x
    rfl
  | cons pick picks ih =>
    intro x
    rw [List.foldl_cons, ih, size_absorbed]

@[simp] theorem size_sums (E : Expansion) (A : Alphabet σ) (input x : Buffer σ) :
    (E.sums A input x).size = x.size := size_foldl_absorbed A input E.sources x

@[simp] theorem Mode.size_start (A : Alphabet σ) (mode : Mode) (x : Buffer σ) :
    (mode.start A x).size = x.size := by
  cases mode with
  | add => rfl
  | overwrite => exact x.size_fill _

theorem absorb_yields (A : Alphabet σ) {input x : Buffer σ} {pick : Pick}
    (hrow : pick.row < x.size) (hsource : pick.source < input.size) :
    Yields (absorb A input pick) x () (absorbed A input x pick) [] := by
  let b := input.get pick.source hsource
  have hget : input.get? pick.source = some b := dif_pos hsource
  have hwrite := Yields.write hrow (A.add (x.get pick.row hrow) b)
  rw [← x.modify_of_lt hrow (A.add · b)] at hwrite
  refine (Yields.read hrow).andThen ?_
  rw [hget, absorbed, input.getElem?_cells, hget]
  exact hwrite

theorem absorb_all_yields (A : Alphabet σ) (input : Buffer σ) (picks : List Pick) :
    ∀ x : Buffer σ, (∀ pick ∈ picks, pick.row < x.size ∧ pick.source < input.size) →
      Yields (picks.forM (absorb A input)) x () (picks.foldl (absorbed A input) x) [] := by
  induction picks with
  | nil =>
    intro x _
    exact .forM_nil _ x
  | cons pick picks ih =>
    intro x hall
    obtain ⟨hrow, hsource⟩ := hall pick List.mem_cons_self
    have hrest : ∀ p ∈ picks, p.row < (absorbed A input x pick).size ∧ p.source < input.size := by
      intro p hp
      rw [size_absorbed]
      exact hall p (List.mem_cons_of_mem pick hp)
    exact .forM_cons (absorb_yields A hrow hsource) (ih _ hrest)

/-- What expanding does after the checks and the start: the sums are added to the buffer. -/
theorem absorb_picks_yields (E : Expansion) (A : Alphabet σ) {input x : Buffer σ}
    (hinput : input.size = E.sourceSize) (hx : x.size = E.messageSize) :
    Yields (Edit.orFault E.picks >>= fun picks => picks.forM (absorb A input)) x ()
      (E.sums A input x) [] := by
  have hall : ∀ pick ∈ E.sources, pick.row < x.size ∧ pick.source < input.size := by
    intro pick hp
    rw [hx, hinput]
    exact E.sources_inside pick hp
  have habsorb := absorb_all_yields A input E.sources x hall
  rw [← List.forM_toArray] at habsorb
  exact (Yields.or_fault E.picks_eq_sources x).andThen habsorb

theorem expand_yields (E : Expansion) (A : Alphabet σ) (mode : Mode) {input x : Buffer σ}
    (hinput : input.size = E.sourceSize) (hx : x.size = E.messageSize) :
    Yields (E.expand A mode input) x () (E.sums A input (mode.start A x)) [] := by
  have hpicks := E.absorb_picks_yields A hinput ((Mode.size_start A mode x).trans hx)
  refine (Yields.require_length hinput.symm x).andThen ?_
  refine (Yields.extent x).andThen ?_
  refine (Yields.require_length hx.symm x).andThen ?_
  cases mode with
  | add => exact hpicks
  | overwrite => exact (Yields.change _ x).andThen hpicks

section Maps

variable {A : Alphabet σ} {B : Alphabet τ} {h : σ → τ} (hh : A.Morphism B h)

include hh

theorem absorbed_map (input x : Buffer σ) (pick : Pick) :
    (absorbed A input x pick).map h = absorbed B (input.map h) (x.map h) pick := by
  rw [absorbed, absorbed, Buffer.getElem?_map]
  cases input.cells[pick.source]? with
  | none => rfl
  | some b => exact Buffer.map_modify (fun a => hh.map_add a b) x pick.row

theorem sums_map (E : Expansion) (input x : Buffer σ) :
    (E.sums A input x).map h = E.sums B (input.map h) (x.map h) :=
  (List.foldl_hom _ fun x pick => (absorbed_map hh input x pick).symm).symm

end Maps

end Expansion
end ExpandConvolute
