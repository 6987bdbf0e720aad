import ExpandConvolute.Draws

/-!
# ExpandConvolute.Proofs.Calls

A source that is asked in several ways. `serve` makes the calls of a list one after the other. If
every call moves the source as one draw does, the source after any calls is the one after as many
draws (`serve_snd`), and call number `p` is answered by the source after `p` draws, whatever the
calls before it were (`getElem?_serve`).
-/

namespace ExpandConvolute

variable {κ τ α : Type}

/-- The answers to calls made one after the other, and the source they leave. -/
def serve (answer : κ → τ → α × τ) : (calls : List κ) → τ → List α × τ
  | [], t => ([], t)
  | call :: calls, t =>
    let (a, t) := answer call t
    let (as, t) := serve answer calls t
    (a :: as, t)

@[simp] theorem serve_nil (answer : κ → τ → α × τ) (t : τ) : serve answer [] t = ([], t) := rfl

@[simp] theorem serve_cons (answer : κ → τ → α × τ) (call : κ) (calls : List κ) (t : τ) :
    serve answer (call :: calls) t =
      ((answer call t).1 :: (serve answer calls (answer call t).2).1,
        (serve answer calls (answer call t).2).2) := rfl

section Moving

variable {β : Type} {answer : κ → τ → α × τ} {draw : τ → β × τ}
  (hmove : ∀ call t, (answer call t).2 = (draw t).2)
include hmove

theorem serve_snd (calls : List κ) (t : τ) :
    (serve answer calls t).2 = afterDraws draw calls.length t := by
  induction calls generalizing t with
  | nil => rfl
  | cons call calls ih => rw [serve_cons, ih, hmove]; rfl

theorem getElem?_serve (calls : List κ) (t : τ) (p : Nat) :
    (serve answer calls t).1[p]? =
      calls[p]?.map fun call => (answer call (afterDraws draw p t)).1 := by
  induction calls generalizing t p with
  | nil => rfl
  | cons call calls ih =>
    cases p with
    | zero => rfl
    | succ p =>
      rw [serve_cons, List.getElem?_cons_succ, List.getElem?_cons_succ, ih, hmove]
      rfl

end Moving

end ExpandConvolute
