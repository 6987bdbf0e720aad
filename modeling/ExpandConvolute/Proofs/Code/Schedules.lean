import Mathlib.Logic.Relation
import ExpandConvolute.Code.Batch
import ExpandConvolute.Proofs.Code.Accepted

/-!
# ExpandConvolute.Proofs.Code.Schedules

Encoding many codewords in any order. `Step` is what a scheduler may do: run a task that is still
pending, or skip it if another one has failed by then. A task has its vector to itself while it
runs, so tasks that overlap come to what they come to one after the other, in the order in which
they end.

* `Sound`: what holds of the vectors in every reachable state. A pending vector is untouched. Any
  other one is encoded, or it is untouched and there is a failure. Every failure is the length of
  an offending codeword.
* `Sound.step`, `Sound.of_steps`: one step and a whole run keep it.
* `ends_run`, `ends_encodeAll`: running all tasks in a given order, and running them one after the
  other until one fails, are two of the schedules.
-/

namespace ExpandConvolute
namespace Batch

open Edit (Yields Refuses)
open Relation (ReflTransGen)

variable {σ : Type}

/-- A batch, and the tasks that have been neither run nor skipped. -/
structure Progress (σ : Type) where
  pending : List Nat
  batch : Batch σ

inductive Step (code : Code) (A : Alphabet σ) : Progress σ → Progress σ → Prop where
  | run {pending : List Nat} {batch : Batch σ} {i : Nat} (h : i ∈ pending) :
      Step code A ⟨pending, batch⟩ ⟨pending.erase i, task code A batch i⟩
  | skip {pending : List Nat} {batch : Batch σ} {i : Nat} (h : i ∈ pending)
      (hfailed : batch.failures ≠ []) :
      Step code A ⟨pending, batch⟩ ⟨pending.erase i, batch⟩

def Progress.start (vectors : Array (Buffer σ)) : Progress σ :=
  ⟨List.range vectors.size, { vectors := vectors }⟩

/-- Some schedule of the tasks of the given vectors ends with `batch`. -/
def Ends (code : Code) (A : Alphabet σ) (vectors : Array (Buffer σ)) (batch : Batch σ) : Prop :=
  ReflTransGen (Step code A) (.start vectors) ⟨[], batch⟩

/-- What may be returned at the end: the vectors if nothing has failed, any one of the failures
otherwise. -/
inductive Returns (batch : Batch σ) : Except Failure (Array (Buffer σ)) → Prop where
  | ok (h : batch.failures = []) : Returns batch (.ok batch.vectors)
  | error {e : Failure} (h : e ∈ batch.failures) : Returns batch (.error e)

theorem returns_result (batch : Batch σ) : batch.Returns batch.result := by
  unfold result
  split
  · rename_i h
    exact .ok h
  · rename_i h
    exact .error (h ▸ List.mem_cons_self)

/-! ## Tasks -/

section Tasks

variable (code : Code) (A : Alphabet σ) {batch : Batch σ} {i : Nat} {x : Buffer σ}

theorem task_encodes (hroom : code.HasRoom) (hi : batch.vectors[i]? = some x)
    (hx : x.size = code.codeSize) :
    task code A batch i =
      ⟨batch.vectors.setIfInBounds i (code.encoded A x), batch.failures,
        batch.log ++ .encodeStarted code.codeSize :: code.refills⟩ := by
  simp only [task, hi, code.encode_yields A hx hroom batch.log]

theorem task_refuses (hi : batch.vectors[i]? = some x) (hx : code.codeSize ≠ x.size) :
    task code A batch i =
      { batch with
        failures := batch.failures ++ [.refused (.lengthMismatch code.codeSize x.size)] } := by
  have hsame : batch.vectors.setIfInBounds i x = batch.vectors := by
    apply Array.ext_getElem?
    intro j
    rw [Array.getElem?_setIfInBounds]
    by_cases hij : i = j
    · subst hij
      rw [if_pos rfl, hi, if_pos (Array.getElem?_eq_some_iff.mp hi).1]
    · rw [if_neg hij]
  simp only [task, hi, code.encode_refuses A hx batch.log, hsame]

theorem task_outside (hi : batch.vectors[i]? = none) : task code A batch i = batch := by
  simp only [task, hi]

end Tasks

/-! ## The invariant -/

/-- The task of the vector `x` at place `i` is done. -/
def Settled (code : Code) (A : Alphabet σ) (batch : Batch σ) (i : Nat) (x : Buffer σ) : Prop :=
  (x.size = code.codeSize ∧ batch.vectors[i]? = some (code.encoded A x)) ∨
    (batch.failures ≠ [] ∧ batch.vectors[i]? = some x)

/-- A failure that names the length of one of the offending codewords. -/
def Blamed (code : Code) (vectors : Array (Buffer σ)) (e : Failure) : Prop :=
  ∃ x ∈ vectors, x.size ≠ code.codeSize ∧
    e = .refused (.lengthMismatch code.codeSize x.size)

structure Sound (code : Code) (A : Alphabet σ) (vectors : Array (Buffer σ)) (s : Progress σ) :
    Prop where
  nodup : s.pending.Nodup
  size : s.batch.vectors.size = vectors.size
  waiting : ∀ i x, vectors[i]? = some x → i ∈ s.pending → s.batch.vectors[i]? = some x
  settled : ∀ i x, vectors[i]? = some x → i ∉ s.pending → Settled code A s.batch i x
  blamed : ∀ e ∈ s.batch.failures, Blamed code vectors e

section Runs

variable {code : Code} {A : Alphabet σ} {vectors : Array (Buffer σ)}

theorem Sound.start : Sound code A vectors (.start vectors) where
  nodup := List.nodup_range
  size := rfl
  waiting _ _ hi _ := hi
  settled i x hi hdone := by
    have hlt : i < vectors.size := (Array.getElem?_eq_some_iff.mp hi).1
    exact absurd (List.mem_range.mpr hlt) hdone
  blamed := nofun

/-- One task leaves the list of pending ones, and no vector but its own changes. -/
theorem Sound.settle {s : Progress σ} (hs : Sound code A vectors s) {i : Nat} {batch : Batch σ}
    (hsize : batch.vectors.size = s.batch.vectors.size)
    (hothers : ∀ j, j ≠ i → batch.vectors[j]? = s.batch.vectors[j]?)
    (hfailed : s.batch.failures ≠ [] → batch.failures ≠ [])
    (hself : ∀ x, vectors[i]? = some x → Settled code A batch i x)
    (hblamed : ∀ e ∈ batch.failures, Blamed code vectors e) :
    Sound code A vectors ⟨s.pending.erase i, batch⟩ where
  nodup := hs.nodup.erase i
  size := hsize.trans hs.size
  waiting j x hj hpending := by
    obtain ⟨hne, hmem⟩ := hs.nodup.mem_erase_iff.mp hpending
    rw [hothers j hne]
    exact hs.waiting j x hj hmem
  settled j x hj hdone := by
    by_cases hne : j = i
    · subst hne
      exact hself x hj
    · have hold : j ∉ s.pending := fun hmem => hdone (hs.nodup.mem_erase_iff.mpr ⟨hne, hmem⟩)
      obtain ⟨hx, hcell⟩ | ⟨hfail, hcell⟩ := hs.settled j x hj hold
      · exact .inl ⟨hx, (hothers j hne).trans hcell⟩
      · exact .inr ⟨hfailed hfail, (hothers j hne).trans hcell⟩
  blamed := hblamed

section Task

variable {s : Progress σ} (hs : Sound code A vectors s) {i : Nat} (hi : i ∈ s.pending)
  {x : Buffer σ}

include hs hi

theorem Sound.encodes (hroom : code.HasRoom) (hx : vectors[i]? = some x)
    (hfits : x.size = code.codeSize) :
    Sound code A vectors ⟨s.pending.erase i, task code A s.batch i⟩ := by
  have hcell := hs.waiting i x hx hi
  have hlt : i < s.batch.vectors.size := (Array.getElem?_eq_some_iff.mp hcell).1
  rw [task_encodes code A hroom hcell hfits]
  refine hs.settle Array.size_setIfInBounds ?_ id ?_ hs.blamed
  · intro j hne
    exact Array.getElem?_setIfInBounds_ne hne.symm
  · intro y hy
    cases hx.symm.trans hy
    exact .inl ⟨hfits, Array.getElem?_setIfInBounds_self_of_lt hlt⟩

theorem Sound.refuses (hx : vectors[i]? = some x) (hoffends : x.size ≠ code.codeSize) :
    Sound code A vectors ⟨s.pending.erase i, task code A s.batch i⟩ := by
  have hcell := hs.waiting i x hx hi
  rw [task_refuses code A hcell hoffends.symm]
  refine hs.settle rfl (fun _ _ => rfl) ?_ ?_ ?_
  · intro _
    exact List.concat_ne_nil _ _
  · intro y hy
    cases hx.symm.trans hy
    exact .inr ⟨List.concat_ne_nil _ _, hcell⟩
  · intro e he
    obtain hold | hnew := List.mem_append.mp he
    · exact hs.blamed e hold
    · exact ⟨x, Array.mem_of_getElem? hx, hoffends, List.mem_singleton.mp hnew⟩

theorem Sound.task (hroom : code.HasRoom) :
    Sound code A vectors ⟨s.pending.erase i, Batch.task code A s.batch i⟩ := by
  cases hx : vectors[i]? with
  | none =>
    have houtside : s.batch.vectors[i]? = none := by
      rw [Array.getElem?_eq_none_iff] at hx ⊢
      rw [hs.size]
      exact hx
    rw [task_outside code A houtside]
    refine hs.settle rfl (fun _ _ => rfl) id ?_ hs.blamed
    intro y hy
    cases hx.symm.trans hy
  | some x =>
    by_cases hfits : x.size = code.codeSize
    · exact hs.encodes hi hroom hx hfits
    · exact hs.refuses hi hx hfits

end Task

theorem Sound.step (hroom : code.HasRoom) {s t : Progress σ} (hs : Sound code A vectors s)
    (h : Step code A s t) : Sound code A vectors t := by
  cases h with
  | run hi => exact hs.task hi hroom
  | skip hi hfailed =>
    refine hs.settle rfl (fun _ _ => rfl) id ?_ hs.blamed
    intro x hx
    exact .inr ⟨hfailed, hs.waiting _ x hx hi⟩

theorem Sound.of_steps (hroom : code.HasRoom) {s : Progress σ}
    (h : ReflTransGen (Step code A) (.start vectors) s) : Sound code A vectors s := by
  induction h with
  | refl => exact .start
  | tail _ hstep ih => exact ih.step hroom hstep

/-! ## Schedules -/

theorem Step.length_pending {s t : Progress σ} (h : Step code A s t) :
    t.pending.length + 1 = s.pending.length := by
  cases h with
  | run hi =>
    have := List.length_pos_of_mem hi
    simp only [List.length_erase_of_mem hi]
    omega
  | skip hi _ =>
    have := List.length_pos_of_mem hi
    simp only [List.length_erase_of_mem hi]
    omega

theorem steps_run (order : List Nat) :
    ∀ (pending : List Nat) (batch : Batch σ), order.Perm pending →
      ReflTransGen (Step code A) ⟨pending, batch⟩ ⟨[], run code A order batch⟩ := by
  induction order with
  | nil =>
    intro pending batch hperm
    rw [List.nil_perm.mp hperm]
    exact .refl
  | cons i order ih =>
    intro pending batch hperm
    obtain ⟨hi, hrest⟩ := List.cons_perm_iff_perm_erase.mp hperm
    exact .head (.run hi) (ih _ _ hrest)

theorem steps_skip (pending : List Nat) {batch : Batch σ} (hfailed : batch.failures ≠ []) :
    ReflTransGen (Step code A) ⟨pending, batch⟩ ⟨[], batch⟩ := by
  induction pending with
  | nil => exact .refl
  | cons i pending ih =>
    have hstep : Step code A ⟨i :: pending, batch⟩ ⟨(i :: pending).erase i, batch⟩ :=
      .skip List.mem_cons_self hfailed
    rw [List.erase_cons_head] at hstep
    exact .head hstep ih

theorem steps_runUntilFailure (order : List Nat) :
    ∀ batch : Batch σ,
      ReflTransGen (Step code A) ⟨order, batch⟩ ⟨[], runUntilFailure code A order batch⟩ := by
  induction order with
  | nil =>
    intro batch
    exact .refl
  | cons i order ih =>
    intro batch
    have hstep : Step code A ⟨i :: order, batch⟩
        ⟨(i :: order).erase i, task code A batch i⟩ := .run List.mem_cons_self
    rw [List.erase_cons_head] at hstep
    rw [runUntilFailure]
    by_cases hfailed : (Batch.task code A batch i).failures = []
    · rw [hfailed]
      exact .head hstep (ih _)
    · rw [if_neg (by rwa [List.isEmpty_iff])]
      exact .head hstep (steps_skip order hfailed)

theorem ends_run {order : List Nat} (h : order.Perm (List.range vectors.size)) :
    Ends code A vectors (run code A order { vectors := vectors }) := steps_run order _ _ h

theorem ends_encodeAll : Ends code A vectors (code.encodeAll A vectors) :=
  steps_runUntilFailure _ _

end Runs

/-- What a batch may have come to at the end of a schedule. -/
structure Outcome (code : Code) (A : Alphabet σ) (vectors : Array (Buffer σ)) (batch : Batch σ) :
    Prop where
  size : batch.vectors.size = vectors.size
  returns : ∃ result, batch.Returns result
  ok_iff : (∃ messages, batch.Returns (.ok messages)) ↔ ∀ x ∈ vectors, x.size = code.codeSize
  encoded : ∀ messages, batch.Returns (.ok messages) → batch.vectors = messages ∧
    ∀ (i : Nat) x, vectors[i]? = some x →
      ∃ m events, Yields (code.encode A) x () m events ∧ messages[i]? = some m
  error : ∀ e, batch.Returns (.error e) → Blamed code vectors e
  offending : ∀ (i : Nat) x, vectors[i]? = some x → x.size ≠ code.codeSize →
    batch.vectors[i]? = some x
  fitting : ∀ (i : Nat) x, vectors[i]? = some x → x.size = code.codeSize →
    batch.vectors[i]? = some x ∨
      ∃ m events, Yields (code.encode A) x () m events ∧ batch.vectors[i]? = some m

theorem Sound.outcome {code : Code} (hroom : code.HasRoom) {A : Alphabet σ}
    {vectors : Array (Buffer σ)} {batch : Batch σ} (hs : Sound code A vectors ⟨[], batch⟩) :
    Outcome code A vectors batch := by
  have hsettled : ∀ i x, vectors[i]? = some x → Settled code A batch i x := by
    intro i x hi
    exact hs.settled i x hi List.not_mem_nil
  have hencoded : batch.failures = [] → ∀ (i : Nat) x, vectors[i]? = some x →
      x.size = code.codeSize ∧ batch.vectors[i]? = some (code.encoded A x) := by
    intro hnone i x hi
    obtain h | ⟨hfail, -⟩ := hsettled i x hi
    · exact h
    · exact absurd hnone hfail
  constructor
  · exact hs.size
  · exact ⟨_, batch.returns_result⟩
  · constructor
    · rintro ⟨_, ⟨hnone⟩⟩ x hx
      obtain ⟨i, hi⟩ := Array.getElem?_of_mem hx
      exact (hencoded hnone i x hi).1
    · intro hall
      have hnone : batch.failures = [] := by
        apply List.eq_nil_iff_forall_not_mem.mpr
        intro e he
        obtain ⟨x, hx, hsize, -⟩ := hs.blamed e he
        exact hsize (hall x hx)
      exact ⟨_, .ok hnone⟩
  · rintro _ ⟨hnone⟩
    refine ⟨rfl, ?_⟩
    intro i x hi
    obtain ⟨hx, hcell⟩ := hencoded hnone i x hi
    exact ⟨_, _, code.encode_yields A hx hroom, hcell⟩
  · intro e h
    cases h with
    | error he => exact hs.blamed e he
  · intro i x hi hsize
    obtain ⟨hx, -⟩ | ⟨-, hcell⟩ := hsettled i x hi
    · exact absurd hx hsize
    · exact hcell
  · intro i x hi hx
    obtain ⟨-, hcell⟩ | ⟨-, hcell⟩ := hsettled i x hi
    · exact .inr ⟨_, _, code.encode_yields A hx hroom, hcell⟩
    · exact .inl hcell

/-- Whatever the order in which the tasks of a batch are run, and whichever of them are skipped
after a failure: the batch is encoded if all codewords have the right length. Otherwise the error
is the length of one that has not, the offending codewords are unchanged, and each of the others
is unchanged or encoded. Every step takes one task off the list and no schedule gets stuck, so each
of them ends. Running all tasks in some order is a schedule, and so is running them one after the
other until one fails. -/
theorem encoded_in_any_order (code : Code) (A : Alphabet σ) (vectors : Array (Buffer σ)) :
    (code.HasRoom → ∀ batch, Ends code A vectors batch → Outcome code A vectors batch) ∧
    (∀ s t, Step code A s t → t.pending.length + 1 = s.pending.length) ∧
    (∀ s, ReflTransGen (Step code A) (.start vectors) s →
      ∃ batch, ReflTransGen (Step code A) s ⟨[], batch⟩ ∧ Ends code A vectors batch) ∧
    (∀ order : List Nat, order.Perm (List.range vectors.size) →
      Ends code A vectors (run code A order { vectors := vectors })) ∧
    Ends code A vectors (code.encodeAll A vectors) := by
  refine ⟨?_, ?_, ?_, ?_, ends_encodeAll⟩
  · intro hroom batch h
    exact (Sound.of_steps hroom h).outcome hroom
  · intro s t h
    exact h.length_pending
  · intro s h
    have hrest : ReflTransGen (Step code A) s ⟨[], run code A s.pending s.batch⟩ :=
      steps_run s.pending s.pending s.batch (.refl _)
    exact ⟨_, hrest, h.trans hrest⟩
  · intro order h
    exact ends_run h

/-- One of two codewords is too short. -/
theorem encoded_in_any_order_at_words :
    let word : Buffer Bool := .ofVector #v[true, false, true, true, false] (by decide)
    let short : Buffer Bool := .ofVector #v[true, false, true] (by decide)
    Code.twoOfFive.HasRoom ∧
      Outcome Code.twoOfFive .bits #[word, short] (Code.twoOfFive.encodeAll .bits #[word, short]) := by
  intro word short
  have hroom : Code.twoOfFive.HasRoom := Code.hasRoom_of_lt (by decide)
  obtain ⟨houtcome, -, -, -, hends⟩ := encoded_in_any_order Code.twoOfFive .bits #[word, short]
  exact ⟨hroom, houtcome hroom _ hends⟩

end Batch
end ExpandConvolute
