import ExpandConvolute.Proofs.Session.Ensures
import ExpandConvolute.Proofs.Session.Refuses

/-!
# ExpandConvolute.Proofs.Session.AllOrNothing

Operations with preconditions.

* `FirstViolated preconditions r`: in the order of the list, the first precondition that does not
  hold is the one that `r` reports.
* `AllOrNothing e x room preconditions`: on the buffer `x` the edit `e` is refused exactly if one of
  them does not hold. Then it reports the first one, and has written nothing and reported no event.
  If there is `room` for what it does, it succeeds in all other cases.
* `Reports r preconditions`: the same of a result that comes without a buffer.

There is one rule for each form of the list: `of_ensures` (or `ok`) for none, and `cons` (or `guard`)
for a precondition that is checked before the others. `Reports.bind` is the rule for checks that
are spread over several stages.
-/

namespace ExpandConvolute

/-- A condition that an operation checks, and what it reports if the condition does not hold. -/
structure Precondition where
  holds : Prop
  refusal : Refusal

/-- A vector has the expected length. -/
def Precondition.length (expected actual : Nat) : Precondition :=
  ⟨expected = actual, .lengthMismatch expected actual⟩

inductive FirstViolated : List Precondition → Refusal → Prop where
  | here {p : Precondition} {rest : List Precondition} (h : ¬ p.holds) :
      FirstViolated (p :: rest) p.refusal
  | later {p : Precondition} {rest : List Precondition} {r : Refusal} (h : p.holds)
      (hr : FirstViolated rest r) : FirstViolated (p :: rest) r

theorem firstViolated_nil (r : Refusal) : ¬ FirstViolated [] r := nofun

theorem firstViolated_cons {p : Precondition} {rest : List Precondition} {r : Refusal} :
    FirstViolated (p :: rest) r ↔
      (¬ p.holds ∧ p.refusal = r) ∨ (p.holds ∧ FirstViolated rest r) := by
  constructor
  · intro h
    cases h with
    | here hp => exact .inl ⟨hp, rfl⟩
    | later hp hr => exact .inr ⟨hp, hr⟩
  · rintro (⟨hp, rfl⟩ | ⟨hp, hr⟩)
    · exact .here hp
    · exact .later hp hr

theorem firstViolated_append {ps qs : List Precondition} {r : Refusal} :
    FirstViolated (ps ++ qs) r ↔
      FirstViolated ps r ∨ ((∀ p ∈ ps, p.holds) ∧ FirstViolated qs r) := by
  induction ps with
  | nil => simp [firstViolated_nil]
  | cons p ps ih =>
    rw [List.cons_append, firstViolated_cons, firstViolated_cons, ih, List.forall_mem_cons]
    by_cases hp : p.holds
    · simp [hp]
    · simp [hp]

theorem exists_firstViolated_iff (ps : List Precondition) :
    (∃ r, FirstViolated ps r) ↔ ¬ ∀ p ∈ ps, p.holds := by
  induction ps with
  | nil => simp [firstViolated_nil]
  | cons p ps ih =>
    simp only [firstViolated_cons, List.forall_mem_cons]
    by_cases hp : p.holds
    · simp [hp, ih]
    · simp [hp]

/-- A result that reports the first violated precondition, and is a success if there is none. -/
def Reports {α : Type} (r : Except Refusal α) (preconditions : List Precondition) : Prop :=
  ∀ e, r = .error e ↔ FirstViolated preconditions e

namespace Reports

variable {α β : Type} {r : Except Refusal α} {ps qs : List Precondition}

theorem ok (a : α) : Reports (.ok a) [] := by
  intro e
  exact ⟨nofun, nofun⟩

theorem guard {p : Prop} [Decidable p] {e : Refusal} (h : p → Reports r ps) :
    Reports (if ¬ p then .error e else r) (⟨p, e⟩ :: ps) := by
  intro e'
  rw [firstViolated_cons]
  by_cases hp : p
  · simp [hp, h hp e']
  · simp [hp]

/-- A value that can be made only if a condition holds. -/
theorem guarded {p : Prop} [Decidable p] {e : Refusal} (f : p → α) :
    Reports (if h : p then .ok (f h) else .error e) [⟨p, e⟩] := by
  intro e'
  rw [firstViolated_cons]
  by_cases hp : p
  · simp only [dif_pos hp, firstViolated_nil]
    simp [hp]
  · simp [hp]

theorem ok_iff (h : Reports r ps) : (∃ a, r = .ok a) ↔ ∀ p ∈ ps, p.holds := by
  have hno := exists_firstViolated_iff ps
  cases r with
  | ok a =>
    have hall : ∀ p ∈ ps, p.holds := by
      apply Classical.byContradiction
      intro hnot
      obtain ⟨e, he⟩ := hno.mpr hnot
      cases (h e).mpr he
    exact ⟨fun _ => hall, fun _ => ⟨a, rfl⟩⟩
  | error e =>
    have hnot := hno.mp ⟨e, (h e).mp rfl⟩
    exact ⟨nofun, fun hall => absurd hall hnot⟩

theorem bind {f : α → Except Refusal β} (h : Reports r ps)
    (hf : ∀ a, (∀ p ∈ ps, p.holds) → Reports (f a) qs) : Reports (r >>= f) (ps ++ qs) := by
  intro e
  rw [firstViolated_append, ← h e]
  cases r with
  | ok a =>
    have hall := h.ok_iff.mp ⟨a, rfl⟩
    show f a = .error e ↔ _
    rw [hf a hall e]
    exact ⟨fun h => .inr ⟨hall, h⟩, fun h => h.elim nofun And.right⟩
  | error e' =>
    have hno : ¬ ∀ p ∈ ps, p.holds := fun hall => by
      obtain ⟨a, ha⟩ := h.ok_iff.mpr hall
      cases ha
    show Except.error e' = .error e ↔ _
    simp [hno]

theorem of_map {f : α → β} (h : Reports (r.map f) ps) : Reports r ps := by
  intro e
  rw [← h e]
  cases r with
  | ok a => exact ⟨nofun, nofun⟩
  | error e' => simp [Except.map]

end Reports

namespace Edit

variable {σ α : Type}

structure AllOrNothing (e : Edit σ α) (x : Buffer σ) (room : Prop)
    (preconditions : List Precondition) : Prop where
  refused_iff : ∀ log r t, e ⟨x, log⟩ = .error (.refused r) t ↔
    FirstViolated preconditions r ∧ t = ⟨x, log⟩
  ok_iff : room → ∀ log, (∃ a t, e ⟨x, log⟩ = .ok a t) ↔ ∀ p ∈ preconditions, p.holds

namespace AllOrNothing

variable {e : Edit σ α} {x : Buffer σ} {room : Prop}

theorem of_ensures {p : α → Prop} (h : Ensures e x.size p)
    (hruns : room → ∃ a y events, Yields e x a y events) : AllOrNothing e x room [] := by
  constructor
  · intro log r t
    exact ⟨fun hrun => absurd hrun h.not_refused, fun hno => absurd hno.1 (firstViolated_nil r)⟩
  · intro hroom log
    obtain ⟨a, y, events, hrun⟩ := hruns hroom
    exact ⟨fun _ => nofun, fun _ => ⟨a, _, hrun log⟩⟩

theorem of_yields {a : α} {y : Buffer σ} {events : List Event} (h : Yields e x a y events) :
    AllOrNothing e x room [] := by
  constructor
  · intro log r t
    rw [h log]
    exact ⟨nofun, fun hno => absurd hno.1 (firstViolated_nil r)⟩
  · intro _ log
    exact ⟨fun _ => nofun, fun _ => ⟨a, _, h log⟩⟩

theorem cons {p : Precondition} {rest : List Precondition}
    (hno : ¬ p.holds → Refuses e x p.refusal) (hrest : p.holds → AllOrNothing e x room rest) :
    AllOrNothing e x room (p :: rest) := by
  by_cases hp : p.holds
  · constructor
    · intro log r t
      rw [(hrest hp).refused_iff log r t, firstViolated_cons]
      simp only [hp, not_true_eq_false, false_and, true_and, false_or]
    · intro hroom log
      rw [(hrest hp).ok_iff hroom log, List.forall_mem_cons]
      exact ⟨fun hall => ⟨hp, hall⟩, fun hall => hall.2⟩
  · have hrefused := hno hp
    constructor
    · intro log r t
      rw [hrefused log, firstViolated_cons]
      simp only [hp, not_false_eq_true, true_and, false_and, or_false]
      constructor
      · intro hrun
        cases hrun
        exact ⟨rfl, rfl⟩
      · rintro ⟨rfl, rfl⟩
        rfl
    · intro _ log
      constructor
      · rintro ⟨a, t, hok⟩
        rw [hrefused log] at hok
        cases hok
      · intro hall
        exact absurd (hall p List.mem_cons_self) hp

end AllOrNothing
end Edit
end ExpandConvolute
