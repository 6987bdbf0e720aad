import ExpandConvolute.Proofs.Session.Yields

/-!
# ExpandConvolute.Proofs.Session.Ensures

What can be said of a run before it is known whether it succeeds.

* `Ensures e n p`: on every buffer of `n` cells, the edit `e` either succeeds, leaves `n` cells and
  returns something with the property `p`, or is at fault. There is one rule for each form of an
  edit, as for `Yields`; an access to position `i` ensures `i < n`.
* `Faults e x`: started on `x`, the edit is at fault. If `e` ensures what does not hold, it is
  (`Ensures.faults`). It is never refused (`Ensures.not_refused`).
* `RunsExactlyIf e x p`: a success if `p` holds, and a fault if not.
-/

namespace ExpandConvolute
namespace Edit

variable {σ α β : Type}

def Ensures (e : Edit σ α) (n : Nat) (p : α → Prop) : Prop :=
  ∀ s : Session σ, s.buffer.size = n →
    match e s with
    | .ok a t => t.buffer.size = n ∧ p a
    | .error failure _ => ∃ f, failure = .fault f

def Faults (e : Edit σ α) (x : Buffer σ) : Prop :=
  ∀ log, ∃ f t, e ⟨x, log⟩ = .error (.fault f) t

/-- Started on `x`, the edit succeeds if and only if `p` holds, and is at fault if and only if it
does not. -/
structure RunsExactlyIf (e : Edit σ α) (x : Buffer σ) (p : Prop) : Prop where
  runs_iff : (∃ a y events, Yields e x a y events) ↔ p
  faults_iff : Faults e x ↔ ¬ p

namespace Ensures

variable {n : Nat} {p q : α → Prop}

theorem mono {e : Edit σ α} (he : Ensures e n p) (hpq : ∀ a, p a → q a) : Ensures e n q := by
  intro s hs
  have h := he s hs
  cases hrun : e s with
  | ok a t =>
    rw [hrun] at h
    exact ⟨h.1, hpq a h.2⟩
  | error failure t =>
    rw [hrun] at h
    exact h

theorem pure {a : α} (h : p a) : Ensures (Pure.pure a : Edit σ α) n p := fun _ hs => ⟨hs, h⟩

/-- An edit that is known to succeed. -/
theorem of_yields {e : Edit σ α}
    (h : ∀ x : Buffer σ, x.size = n → ∃ a y events, Yields e x a y events ∧ y.size = n ∧ p a) :
    Ensures e n p := by
  rintro ⟨x, log⟩ hx
  obtain ⟨a, y, events, hrun, hy⟩ := h x hx
  rw [hrun log]
  exact hy

theorem bind {e : Edit σ α} {f : α → Edit σ β} {r : β → Prop} (he : Ensures e n p)
    (hf : ∀ a, p a → Ensures (f a) n r) : Ensures (e >>= f) n r := by
  intro s hs
  have h := he s hs
  show match EStateM.bind e f s with
    | .ok b t => t.buffer.size = n ∧ r b
    | .error failure _ => ∃ f, failure = .fault f
  cases hrun : e s with
  | ok a t =>
    rw [hrun] at h
    simp only [EStateM.bind, hrun]
    exact hf a h.2 t h.1
  | error failure t =>
    rw [hrun] at h
    simp only [EStateM.bind, hrun]
    exact h

/-! ## Accesses -/

theorem fault (f : Fault) : Ensures (Edit.fault f : Edit σ α) n p := fun _ _ => ⟨f, rfl⟩

theorem extent : Ensures (Edit.extent : Edit σ Nat) n (· = n) := fun _ hs => ⟨hs, hs⟩

theorem read (i : Nat) : Ensures (Edit.read i : Edit σ σ) n (fun _ => i < n) := by
  intro s hs
  by_cases hi : i < s.buffer.size
  · simp only [Edit.read, dif_pos hi]
    exact ⟨hs, hs ▸ hi⟩
  · simp only [Edit.read, dif_neg hi]
    exact ⟨_, rfl⟩

theorem write (i : Nat) (a : σ) : Ensures (Edit.write i a) n (fun _ => i < n) := by
  rintro ⟨x, log⟩ hs
  by_cases hi : i < x.size
  · simp only [Edit.write, dif_pos hi]
    exact ⟨(Buffer.size_set x i a hi).trans hs, hs ▸ hi⟩
  · simp only [Edit.write, dif_neg hi]
    exact ⟨_, rfl⟩

theorem advance (position count : Nat) :
    Ensures (Edit.advance position count : Edit σ Nat) n
      (fun q => q = position + count ∧ q < sizeLimit) := by
  by_cases h : position + count < sizeLimit
  · rw [Edit.advance, addSize, if_pos h]
    exact pure ⟨rfl, h⟩
  · rw [Edit.advance, addSize, if_neg h]
    exact fault _

theorem emit (event : Event) : Ensures (Edit.emit event : Edit σ Unit) n (fun _ => True) :=
  fun _ hs => ⟨hs, trivial⟩

theorem contents : Ensures (Edit.contents : Edit σ (Buffer σ)) n (fun b => b.size = n) :=
  fun _ hs => ⟨hs, hs⟩

theorem require_length {expected actual : Nat} (h : expected = actual) :
    Ensures (Edit.orRefuse (requireLength expected actual) : Edit σ Unit) n (fun _ => True) := by
  rw [requireLength, if_pos h]
  exact pure trivial

/-- An edit that is at fault unless a condition holds. -/
theorem guard {c : Prop} [Decidable c] {f : Fault} {e : Edit σ α} (h : ¬ c → Ensures e n p) :
    Ensures (if c then Edit.fault f else e) n p := by
  by_cases hc : c
  · rw [if_pos hc]
    exact fault f
  · rw [if_neg hc]
    exact h hc

/-! ## Parts of the buffer -/

theorem cut (b : Buffer σ) (k : Nat) :
    Ensures (Edit.orFault (b.cut k) : Edit σ (Buffer σ × Buffer σ)) n
      (fun parts => k ≤ b.size ∧ parts = (b.take k, b.drop k)) := by
  by_cases hk : k ≤ b.size
  · rw [b.cut_of_le hk]
    exact pure ⟨hk, rfl⟩
  · rw [Buffer.cut, if_neg hk]
    exact fault _

theorem on_part {e : Edit σ α} {part : Buffer σ} {q : α → Prop} (k : Nat)
    (he : Ensures e part.size q) : Ensures (Edit.onPart k part e) n q := by
  intro s hs
  have h := he { s with buffer := part } rfl
  rw [Edit.onPart]
  cases hrun : e { s with buffer := part } with
  | ok a t =>
    rw [hrun] at h
    exact ⟨(Buffer.size_overlay ..).trans hs, h.2⟩
  | error failure t =>
    rw [hrun] at h
    exact h

theorem on_suffix {e : Edit σ α} {k : Nat} (he : k ≤ n → Ensures e (n - k) p) :
    Ensures (Edit.onSuffix k e) n p := by
  refine contents.bind fun b hb => ?_
  refine (cut b k).bind fun parts hcut => ?_
  obtain ⟨hk, rfl⟩ := hcut
  apply on_part
  rw [Buffer.size_drop, hb]
  exact he (hb ▸ hk)

/-! ## Lists of edits -/

theorem forM {f : α → Edit σ PUnit} {q : α → Prop} (as : List α)
    (hf : ∀ a ∈ as, Ensures (f a) n (fun _ => q a)) :
    Ensures (as.forM f) n (fun _ => ∀ a ∈ as, q a) := by
  induction as with
  | nil => exact pure nofun
  | cons a as ih =>
    refine (hf a List.mem_cons_self).bind fun _ ha => ?_
    refine (ih fun b hb => hf b (List.mem_cons_of_mem a hb)).mono fun _ has => ?_
    exact List.forall_mem_cons.mpr ⟨ha, has⟩

/-! ## Runs -/

theorem not_refused {e : Edit σ α} {s t : Session σ} {r : Refusal}
    (he : Ensures e s.buffer.size p) : e s ≠ .error (.refused r) t := by
  intro hrun
  have h := he s rfl
  rw [hrun] at h
  obtain ⟨f, hf⟩ := h
  cases hf

theorem faults {e : Edit σ α} {x : Buffer σ} (he : Ensures e x.size p) (hp : ∀ a, ¬ p a) :
    Faults e x := by
  intro log
  have h := he ⟨x, log⟩ rfl
  cases hrun : e ⟨x, log⟩ with
  | ok a t =>
    rw [hrun] at h
    exact absurd h.2 (hp a)
  | error failure t =>
    rw [hrun] at h
    obtain ⟨f, rfl⟩ := h
    exact ⟨f, t, rfl⟩

end Ensures

theorem Faults.not_yields {e : Edit σ α} {x y : Buffer σ} {a : α} {events : List Event}
    (h : Faults e x) : ¬ Yields e x a y events := by
  intro hrun
  obtain ⟨f, t, hfault⟩ := h []
  rw [hrun []] at hfault
  cases hfault

/-- What a run needs to succeed and what a success ensures are the same. -/
theorem RunsExactlyIf.of_ensures {e : Edit σ α} {x : Buffer σ} {p : Prop}
    (hruns : p → ∃ a y events, Yields e x a y events)
    (hensures : Ensures e x.size (fun _ => p)) : RunsExactlyIf e x p := by
  by_cases hp : p
  · obtain ⟨a, y, events, hrun⟩ := hruns hp
    exact ⟨⟨fun _ => hp, hruns⟩, ⟨fun h => absurd hrun h.not_yields, fun h => absurd hp h⟩⟩
  · have hfault : Faults e x := hensures.faults fun _ => hp
    refine ⟨⟨?_, fun h => absurd h hp⟩, ⟨fun _ => hp, fun _ => hfault⟩⟩
    rintro ⟨a, y, events, hrun⟩
    exact absurd hrun hfault.not_yields

theorem RunsExactlyIf.congr {e : Edit σ α} {x : Buffer σ} {p q : Prop} (h : RunsExactlyIf e x p)
    (hpq : p ↔ q) : RunsExactlyIf e x q := by
  rwa [← propext hpq]

end Edit
end ExpandConvolute
