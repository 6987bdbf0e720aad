import ExpandConvolute.Proofs.Session.Yields

/-!
# ExpandConvolute.Proofs.Session.Refuses

Refused runs of edits, beside the successful ones.

* `Refuses e x r`: started on the buffer `x`, the edit `e` is refused with `r`, and the buffer and
  the log are what they have been.
* `Decides e x p`: started on `x`, the edit `e` is never at fault, and it succeeds exactly if `p`
  holds. `Settles` is the same for results without a buffer.
-/

namespace ExpandConvolute

variable {σ α β : Type}

/-- A result that is no fault, and a success exactly if `p` holds. -/
structure Settles (p : Prop) (r : Except Failure α) : Prop where
  no_fault : ∀ f, r ≠ .error (.fault f)
  ok_iff : (∃ a, r = .ok a) ↔ p

theorem Settles.of_cases {p : Prop} {r : Except Failure α} (hyes : p → ∃ a, r = .ok a)
    (hno : ¬ p → ∃ e, r = .error (.refused e)) : Settles p r := by
  by_cases hp : p
  · obtain ⟨a, rfl⟩ := hyes hp
    exact ⟨nofun, fun _ => hp, fun _ => ⟨a, rfl⟩⟩
  · obtain ⟨e, rfl⟩ := hno hp
    exact ⟨nofun, nofun, fun h => absurd h hp⟩

namespace Edit

/-- What a run returns, without the buffer it leaves. -/
def result (e : Edit σ α) (s : Session σ) : Except Failure α :=
  match e s with
  | .ok a _ => .ok a
  | .error failure _ => .error failure

def Decides (e : Edit σ α) (x : Buffer σ) (p : Prop) : Prop :=
  ∀ log, Settles p (e.result ⟨x, log⟩)

def Refuses (e : Edit σ α) (x : Buffer σ) (r : Refusal) : Prop :=
  ∀ log, e ⟨x, log⟩ = .error (.refused r) ⟨x, log⟩

namespace Refuses

theorem bind {e : Edit σ α} {x : Buffer σ} {r : Refusal} (h : Refuses e x r) (f : α → Edit σ β) :
    Refuses (e >>= f) x r := by
  intro log
  show EStateM.bind e f _ = _
  simp only [EStateM.bind, h log]

theorem refuse (r : Refusal) (x : Buffer σ) : Refuses (Edit.refuse r : Edit σ α) x r := by
  intro log
  rfl

theorem require_length {expected actual : Nat} (h : expected ≠ actual) (x : Buffer σ) :
    Refuses (Edit.orRefuse (requireLength expected actual)) x (.lengthMismatch expected actual) := by
  intro log
  rw [requireLength, if_neg h]
  rfl

end Refuses

/-- A refusal after steps that have changed nothing. -/
theorem Yields.refuses {e : Edit σ α} {f : α → Edit σ β} {x : Buffer σ} {a : α} {r : Refusal}
    (he : Yields e x a x []) (hf : Refuses (f a) x r) : Refuses (e >>= f) x r := by
  intro log
  have hrun := hf log
  show EStateM.bind e f _ = _
  simp only [EStateM.bind, he log, List.append_nil, hrun]

theorem Decides.of_cases {e : Edit σ α} {x : Buffer σ} {p : Prop}
    (hyes : p → ∃ a y events, Yields e x a y events) (hno : ¬ p → ∃ r, Refuses e x r) :
    Decides e x p := by
  intro log
  apply Settles.of_cases
  · intro hp
    obtain ⟨a, y, events, h⟩ := hyes hp
    exact ⟨a, by rw [result, h log]⟩
  · intro hp
    obtain ⟨r, h⟩ := hno hp
    exact ⟨r, by rw [result, h log]⟩

/-- An edit that is particular about the length of its buffer and nothing else. -/
theorem Decides.of_length {e : Edit σ α} {x y : Buffer σ} {a : α} {events : List Event}
    {r : Refusal} {n : Nat} (hyes : x.size = n → Yields e x a y events)
    (hno : n ≠ x.size → Refuses e x r) : Decides e x (x.size = n) := by
  apply Decides.of_cases
  · intro hx
    exact ⟨a, y, events, hyes hx⟩
  · intro hx
    exact ⟨r, hno (Ne.symm hx)⟩

end Edit
end ExpandConvolute
