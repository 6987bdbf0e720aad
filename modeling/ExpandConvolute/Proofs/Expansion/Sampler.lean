import ExpandConvolute.Draws
import ExpandConvolute.Expansion.IndexSampler

/-!
# ExpandConvolute.Proofs.Expansion.Sampler

Index samplers by position. `IndexSampler.index s d` is what sampler `s` draws after `d` further
draws, as a double word of its keystream; `next_fst` and `index_next` say that drawing is reading
it off and moving on, whether or not a pool is used up, and `index_afterDraws` is the same for a
run of draws.
-/

namespace ExpandConvolute
namespace IndexSampler

/-- The number of indices drawn so far. -/
def drawn (s : IndexSampler) : Nat := poolSize * s.page + s.cursor

theorem ofSeed_ok (seed : Seed) {modulus : Nat} (h : 0 < modulus) :
    ∃ s, ofSeed seed modulus = .ok s := ⟨_, dif_pos h⟩

theorem fields_ofSeed {seed : Seed} {modulus : Nat} {s : IndexSampler}
    (h : ofSeed seed modulus = .ok s) :
    s.source = Keystream.ofSeed seed indexStream ∧ s.modulus = modulus ∧
      s.page = 0 ∧ s.cursor = 0 := by
  unfold ofSeed at h
  split at h
  · cases h
    exact ⟨rfl, rfl, rfl, rfl⟩
  · cases h

theorem modulus_ofSeed {seed : Seed} {modulus : Nat} {s : IndexSampler}
    (h : ofSeed seed modulus = .ok s) : s.modulus = modulus := (fields_ofSeed h).2.1

def index (s : IndexSampler) (d : Nat) : Nat :=
  s.source.doubleWord (2 * (s.drawn + d)) % s.modulus

theorem index_lt (s : IndexSampler) (d : Nat) : s.index d < s.modulus :=
  Nat.mod_lt _ s.modulus_pos

theorem getElem_poolOf (source : Keystream) (modulus page i : Nat) (h : i < poolSize) :
    (poolOf source modulus page)[i] = source.doubleWord (2 * (poolSize * page + i)) % modulus := by
  have h0 : 2 * poolSize * page + 2 * i = 2 * (poolSize * page + i) := by
    rw [Nat.mul_add, Nat.mul_assoc]
  have h1 : 2 * poolSize * page + (2 * i + 1) = 2 * (poolSize * page + i) + 1 := by
    rw [← Nat.add_assoc, h0]
  simp only [poolOf, Vector.getElem_ofFn, Keystream.getElem_words, Keystream.doubleWord, h0, h1]

theorem take_fst (s : IndexSampler) (h : s.cursor < poolSize) : (s.take h).1 = s.index 0 := by
  have hp : s.pool[s.cursor] = (poolOf s.source s.modulus s.page)[s.cursor] := by rw [s.pool_eq]
  show s.pool[s.cursor] = _
  rw [hp, getElem_poolOf]
  rfl

theorem drawn_turnPage (s : IndexSampler) (h : ¬ s.cursor < poolSize) :
    s.turnPage.drawn = s.drawn := by
  have hc : s.cursor = poolSize := Nat.le_antisymm s.cursor_le (by omega)
  show poolSize * (s.page + 1) + 0 = poolSize * s.page + s.cursor
  rw [hc, Nat.mul_succ, Nat.add_zero]

theorem next_fst (s : IndexSampler) : s.next.1 = s.index 0 := by
  by_cases h : s.cursor < poolSize
  · rw [next, dif_pos h, take_fst]
  · have hp : s.turnPage.cursor < poolSize := Nat.succ_pos _
    have hn : s.next = s.turnPage.take hp := dif_neg h
    rw [hn, take_fst, index, drawn_turnPage s h]
    rfl

@[simp] theorem modulus_next (s : IndexSampler) : s.next.2.modulus = s.modulus := by
  by_cases h : s.cursor < poolSize
  · rw [next, dif_pos h]; rfl
  · rw [next, dif_neg h]; rfl

@[simp] theorem source_next (s : IndexSampler) : s.next.2.source = s.source := by
  by_cases h : s.cursor < poolSize
  · rw [next, dif_pos h]; rfl
  · rw [next, dif_neg h]; rfl

@[simp] theorem drawn_next (s : IndexSampler) : s.next.2.drawn = s.drawn + 1 := by
  by_cases h : s.cursor < poolSize
  · rw [next, dif_pos h]; rfl
  · rw [next, dif_neg h, ← drawn_turnPage s h]; rfl

theorem cursor_next_pos (s : IndexSampler) : 0 < s.next.2.cursor := by
  by_cases h : s.cursor < poolSize
  · rw [next, dif_pos h]; exact Nat.succ_pos _
  · rw [next, dif_neg h]; exact Nat.succ_pos _

theorem index_next (s : IndexSampler) (d : Nat) : s.next.2.index d = s.index (d + 1) := by
  rw [index, index, modulus_next, source_next, drawn_next, Nat.add_assoc, Nat.add_comm 1]

theorem modulus_afterDraws (n : Nat) (s : IndexSampler) :
    (afterDraws next n s).modulus = s.modulus := afterDraws_constant modulus modulus_next n s

theorem index_afterDraws (n : Nat) (s : IndexSampler) (d : Nat) :
    (afterDraws next n s).index d = s.index (n + d) := by
  induction n generalizing s with
  | zero => rw [Nat.zero_add]; rfl
  | succ n ih => rw [afterDraws, ih, index_next, Nat.add_right_comm]

theorem next_afterDraws (s : IndexSampler) (d : Nat) :
    (afterDraws next d s).next.1 = s.index d := by
  rw [next_fst, index_afterDraws, Nat.add_zero]

theorem drawn_afterDraws (n : Nat) (s : IndexSampler) : (afterDraws next n s).drawn = s.drawn + n :=
  afterDraws_count drawn drawn_next n s

theorem cursor_afterDraws_pos (n : Nat) (s : IndexSampler) :
    0 < (afterDraws next (n + 1) s).cursor := by
  rw [afterDraws_add]
  exact cursor_next_pos _

end IndexSampler
end ExpandConvolute
