/-!
# ExpandConvolute.Draws

Repeated draws from a source that is replaced by its successor at each draw: keystream tapes,
coefficient windows and index samplers are all read this way. What every draw leaves alone is left
alone by a run of draws (`afterDraws_constant`), and what every draw counts up counts the run
(`afterDraws_count`).
-/

namespace ExpandConvolute

/-- Adds the results of `count` further draws to those in `drawn`. -/
def drawsFrom {τ α : Type} (draw : τ → α × τ) : (count : Nat) → τ → Array α → Array α × τ
  | 0, t, drawn => (drawn, t)
  | count + 1, t, drawn => drawsFrom draw count (draw t).2 (drawn.push (draw t).1)

/-- The results of `count` successive draws, and the source they leave. -/
def draws {τ α : Type} (draw : τ → α × τ) (count : Nat) (t : τ) : Array α × τ :=
  drawsFrom draw count t #[]

def afterDraws {τ α : Type} (draw : τ → α × τ) : (count : Nat) → τ → τ
  | 0, t => t
  | count + 1, t => afterDraws draw count (draw t).2

section AfterDraws

variable {τ α β : Type} {draw : τ → α × τ}

theorem afterDraws_add (draw : τ → α × τ) (n k : Nat) (t : τ) :
    afterDraws draw (n + k) t = afterDraws draw k (afterDraws draw n t) := by
  induction n generalizing t with
  | zero => rw [Nat.zero_add]; rfl
  | succ n ih =>
    rw [Nat.add_right_comm]
    exact ih (draw t).2

/-- What no draw changes. -/
theorem afterDraws_constant (f : τ → β) (h : ∀ t, f (draw t).2 = f t) (n : Nat) (t : τ) :
    f (afterDraws draw n t) = f t := by
  induction n generalizing t with
  | zero => rfl
  | succ n ih => rw [afterDraws, ih, h]

/-- What counts the draws. -/
theorem afterDraws_count (f : τ → Nat) (h : ∀ t, f (draw t).2 = f t + 1) (n : Nat) (t : τ) :
    f (afterDraws draw n t) = f t + n := by
  induction n generalizing t with
  | zero => rfl
  | succ n ih =>
    rw [afterDraws, ih, h]
    omega

end AfterDraws

/-- A page that is turned only when a draw needs the next one is the page of the last draw. -/
theorem page_of_last_draw {size page cursor n : Nat} (hdrawn : size * page + cursor = n + 1)
    (hpos : 0 < cursor) (hle : cursor ≤ size) : page = n / size := by
  have hn : n = size * page + (cursor - 1) := by omega
  rw [hn, Nat.mul_add_div (by omega), Nat.div_eq_of_lt (by omega), Nat.add_zero]

end ExpandConvolute
