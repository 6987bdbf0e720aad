import ExpandConvolute.Convolution.Recurrence
import ExpandConvolute.Draws
import ExpandConvolute.Proofs.Convolution.Bits

/-!
# ExpandConvolute.Proofs.Convolution.Windows

Coefficient windows by position. `Windows.drawn` counts the windows that have been taken: those of
the pages before the present one and those before the cursor. Turning an exhausted page leaves
that number alone, so:

* `next_window`: draw number `p` is the window at `windowStart width p` of the keystream, whatever
  page the buffer holds;
* `drawn_next`: a draw adds one;
* `page_afterDraws`: `n` draws from the beginning turn `(n - 1) / (4097 - span)` pages. The first
  draw after a full page turns it, not the last one before.
-/

namespace ExpandConvolute
namespace Convolution
namespace Windows

/-- The windows that begin in one page of the buffer. -/
abbrev perPage (width : Nat) : Nat := bufferOctets + 1 - spanOf width

def drawn (w : Windows) : Nat := perPage w.width * w.page + w.cursor

theorem cursor_le_perPage (w : Windows) : w.cursor ≤ perPage w.width := by
  have := w.cursor_le
  simp only [perPage]
  omega

/-- Where the next window begins, as long as there is one in the buffer. -/
theorem windowStart_drawn (w : Windows) (h : ¬ w.Exhausted) :
    windowStart w.width w.drawn = bufferOctets * w.page + w.cursor := by
  have hc : w.cursor < perPage w.width := by
    have := span_le w.width_le
    simp only [Exhausted, span] at h
    simp only [perPage]
    omega
  have hq : w.drawn / perPage w.width = w.page := by
    rw [drawn, Nat.mul_add_div (by omega), Nat.div_eq_of_lt hc, Nat.add_zero]
  have hr : w.drawn % perPage w.width = w.cursor := by
    rw [drawn, Nat.mul_add_mod, Nat.mod_eq_of_lt hc]
  show bufferOctets * (w.drawn / perPage w.width) + w.drawn % perPage w.width = _
  rw [hq, hr]

theorem drawn_turnPage (w : Windows) (h : w.Exhausted) : w.turnPage.drawn = w.drawn := by
  have hc : w.cursor = perPage w.width := by
    have := w.cursor_le
    simp only [Exhausted, span] at h
    simp only [perPage]
    omega
  show perPage w.width * (w.page + 1) + 0 = perPage w.width * w.page + w.cursor
  rw [hc, Nat.mul_succ, Nat.add_zero]

theorem octet_buffer (w : Windows) {j : Nat} (hj : j < bufferOctets) :
    w.buffer[j] = w.source.octet (bufferOctets * w.page + j) := by
  have hb : 4 * (bufferOctets / 4 * w.page) = bufferOctets * w.page := by
    rw [← Nat.mul_assoc]
    rfl
  have hw : w.buffer[j] = (pageOf w.source w.page)[j] := by rw [w.buffer_eq]
  rw [hw, pageOf, Keystream.getElem_octets _ _ _ _ hj, hb]

/-! ## One draw -/

theorem take_window (w : Windows) (h : ¬ w.Exhausted) :
    (w.take h).1 =
      List.ofFn fun b : Fin w.span => w.source.octet (windowStart w.width w.drawn + b.val) := by
  rw [windowStart_drawn w h]
  apply congrArg List.ofFn
  funext b
  have hb : w.cursor + b.val < bufferOctets := by
    have := b.isLt
    simp only [Exhausted] at h
    omega
  rw [octet_buffer w hb, Nat.add_assoc]

theorem next_window (w : Windows) :
    w.next.1 =
      List.ofFn fun b : Fin w.span => w.source.octet (windowStart w.width w.drawn + b.val) := by
  by_cases h : w.Exhausted
  · rw [next, dif_pos h, take_window, drawn_turnPage w h]
    rfl
  · rw [next, dif_neg h, take_window]

@[simp] theorem source_next (w : Windows) : w.next.2.source = w.source := by
  by_cases h : w.Exhausted
  · rw [next, dif_pos h]; rfl
  · rw [next, dif_neg h]; rfl

@[simp] theorem width_next (w : Windows) : w.next.2.width = w.width := by
  by_cases h : w.Exhausted
  · rw [next, dif_pos h]; rfl
  · rw [next, dif_neg h]; rfl

@[simp] theorem drawn_next (w : Windows) : w.next.2.drawn = w.drawn + 1 := by
  by_cases h : w.Exhausted
  · rw [next, dif_pos h, ← drawn_turnPage w h]; rfl
  · rw [next, dif_neg h]; rfl

theorem cursor_next_pos (w : Windows) : 0 < w.next.2.cursor := by
  by_cases h : w.Exhausted
  · rw [next, dif_pos h]; exact Nat.succ_pos _
  · rw [next, dif_neg h]; exact Nat.succ_pos _

theorem page_next (w : Windows) : w.next.2.page = w.page + w.report.length := by
  by_cases h : w.Exhausted
  · rw [next, dif_pos h, report, if_pos h]; rfl
  · rw [next, dif_neg h, report, if_neg h]; rfl

/-- What is reported when `count` pages are turned. -/
def refills (count : Nat) : List Event := List.replicate count .windowsRefilled

theorem refills_add (n k : Nat) : refills (n + k) = refills n ++ refills k :=
  List.replicate_append_replicate.symm

theorem report_eq_refills (w : Windows) : w.report = refills w.report.length := by
  by_cases h : w.Exhausted
  · rw [report, if_pos h]; rfl
  · rw [report, if_neg h]; rfl

/-- The coefficient bits of a draw are those of the closed form. -/
theorem testBit_next (w : Windows) {a : Nat} (h : a < w.width) :
    (Octets.value w.next.1).testBit a =
      (w.source.octet (windowStart w.width w.drawn + a / 8)).toNat.testBit (a % 8) := by
  have ha : a / 8 < w.span := by
    simp only [span, spanOf]
    omega
  rw [Octets.testBit_value, next_window, List.getElem?_ofFn, dif_pos ha, Option.getD_some]

theorem length_next (w : Windows) : w.next.1.length = spanOf w.width := by
  rw [next_window, List.length_ofFn]

/-! ## A run of draws -/

theorem width_afterDraws (n : Nat) (w : Windows) : (afterDraws next n w).width = w.width :=
  afterDraws_constant width width_next n w

theorem source_afterDraws (n : Nat) (w : Windows) : (afterDraws next n w).source = w.source :=
  afterDraws_constant source source_next n w

theorem drawn_afterDraws (n : Nat) (w : Windows) : (afterDraws next n w).drawn = w.drawn + n :=
  afterDraws_count drawn drawn_next n w

theorem page_le_afterDraws (n : Nat) (w : Windows) : w.page ≤ (afterDraws next n w).page := by
  induction n generalizing w with
  | zero => exact Nat.le_refl _
  | succ n ih =>
    have := ih w.next.2
    rw [page_next] at this
    rw [afterDraws]
    omega

/-- The pages that a run of draws turns: first that of the next draw, then those of the rest. -/
theorem refills_afterDraws (w : Windows) (n : Nat) :
    refills ((afterDraws next (n + 1) w).page - w.page) =
      w.report ++ refills ((afterDraws next n w.next.2).page - w.next.2.page) := by
  have hle := page_le_afterDraws n w.next.2
  have hpage := w.page_next
  have hcount : (afterDraws next (n + 1) w).page - w.page =
      w.report.length + ((afterDraws next n w.next.2).page - w.next.2.page) := by
    rw [afterDraws]
    omega
  rw [hcount, refills_add, ← w.report_eq_refills]

theorem cursor_afterDraws_pos (n : Nat) (w : Windows) :
    0 < (afterDraws next (n + 1) w).cursor := by
  rw [afterDraws_add]
  exact cursor_next_pos _

/-- The windows of a seed after `n` draws. -/
theorem fields_afterDraws (seed : Seed) {width : Nat} (h : width ≤ maxWidth) (n : Nat) :
    let w := afterDraws next n (ofSeed seed width h)
    w.source = Keystream.ofSeed seed coefficientStream ∧ w.width = width ∧ w.drawn = n := by
  refine ⟨source_afterDraws n _, width_afterDraws n _, ?_⟩
  rw [drawn_afterDraws]
  exact Nat.zero_add n

theorem page_afterDraws (seed : Seed) {width : Nat} (h : width ≤ maxWidth) (n : Nat) :
    (afterDraws next n (ofSeed seed width h)).page = (n - 1) / perPage width := by
  obtain ⟨-, hwidth, hdrawn⟩ := fields_afterDraws seed h n
  have hle := hwidth ▸ cursor_le_perPage (afterDraws next n (ofSeed seed width h))
  rw [drawn, hwidth] at hdrawn
  cases n with
  | zero => simp [afterDraws, ofSeed]
  | succ n => exact page_of_last_draw hdrawn (cursor_afterDraws_pos n _) hle

end Windows
end Convolution
end ExpandConvolute
