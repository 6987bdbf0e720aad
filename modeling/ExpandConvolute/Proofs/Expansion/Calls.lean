import ExpandConvolute.Proofs.Calls
import ExpandConvolute.Proofs.Expansion.Sampler
import ExpandConvolute.Proofs.Octets
import Mathlib.Data.List.OfFn

/-!
# ExpandConvolute.Proofs.Expansion.Calls

Index samplers in any use. An index is drawn directly or through the stream interface, which could
also say that the stream has ended. `calls_read_double_words`: whichever of the two is used at each
draw, draw number `d` is the double word at byte `8 * d` of the keystream, reduced by the modulus,
and a sampler for a divisor of the modulus draws the remainders of these.

Words and double words are numbers of keystream bytes by `value_word` and `value_doubleWord`.
-/

namespace ExpandConvolute
namespace Keystream

theorem octetOfWord_eq (w : UInt32) {i : Nat} (h : i < 4) :
    octetOfWord w i = UInt8.ofNat (w.toNat / 256 ^ i) := by
  have hshift : ∀ i < 4, (8 * UInt32.ofNat i).toNat % 32 = 8 * i := by decide
  have hp : 256 ^ i = 2 ^ (8 * i) := by rw [Nat.pow_mul]
  apply UInt8.toNat_inj.mp
  rw [octetOfWord, UInt32.toNat_toUInt8, UInt32.toNat_shiftRight, hshift i h, UInt8.toNat_ofNat',
    hp, Nat.shiftRight_eq_div_pow]

theorem octet_word (k : Keystream) (i : Nat) {b : Nat} (h : b < 4) :
    k.octet (4 * i + b) = octetOfWord (k.word i) b := by
  rw [octet, Nat.mul_add_div (by decide), Nat.div_eq_of_lt h, Nat.mul_add_mod,
    Nat.mod_eq_of_lt h, Nat.add_zero]

theorem value_word (k : Keystream) (i : Nat) :
    Octets.value (List.ofFn fun b : Fin 4 => k.octet (4 * i + b.val)) = (k.word i).toNat := by
  have hbytes : (List.ofFn fun b : Fin 4 => k.octet (4 * i + b.val)) =
      Octets.littleEndian 4 (k.word i).toNat := by
    simp [List.ofFn_succ, octet_word, octetOfWord_eq, Octets.littleEndian,
      Nat.div_div_eq_div_mul]
  rw [hbytes, Octets.value_littleEndian]
  exact Nat.mod_eq_of_lt (k.word i).toNat_lt

theorem value_doubleWord (k : Keystream) (i : Nat) :
    Octets.value (List.ofFn fun b : Fin 8 => k.octet (4 * i + b.val)) = k.doubleWord i := by
  have hsplit : (List.ofFn fun b : Fin 8 => k.octet (4 * i + b.val)) =
      (List.ofFn fun b : Fin 4 => k.octet (4 * i + b.val)) ++
        List.ofFn fun b : Fin 4 => k.octet (4 * (i + 1) + b.val) := by
    rw [List.ofFn_add (m := 4) (n := 4)]
    simp [Nat.mul_add, Nat.add_assoc]
  have hp : 256 ^ 4 = UInt32.size := by decide
  rw [hsplit, Octets.value_append, value_word, value_word, List.length_ofFn, hp, doubleWord]

end Keystream

namespace IndexSampler

/-- The ways to draw an index: directly, and as the next element of a stream. -/
inductive Call where
  | get
  | next
deriving DecidableEq, Repr

/-- The answer to a call. Only a stream can answer that there is nothing left. -/
def answer (call : Call) (s : IndexSampler) : Option Nat × IndexSampler :=
  match call with
  | .get => (some s.next.1, s.next.2)
  | .next =>
    match Std.Stream.next? s with
    | some (index, s) => (some index, s)
    | none => (none, s)

/-- The 64-bit number at bytes `8 * d` to `8 * d + 7` of the index keystream of a seed. -/
def seedWord (seed : Seed) (d : Nat) : Nat :=
  Octets.value (List.ofFn fun b : Fin 8 =>
    (Keystream.ofSeed seed indexStream).octet (8 * d + b.val))

theorem answer_eq (call : Call) (s : IndexSampler) : answer call s = (some s.next.1, s.next.2) := by
  cases call with
  | get => rfl
  | next => rfl

theorem answer_snd (call : Call) (s : IndexSampler) : (answer call s).2 = s.next.2 := by
  rw [answer_eq]

theorem index_eq_seedWord {seed : Seed} {modulus : Nat} {s : IndexSampler}
    (h : ofSeed seed modulus = .ok s) (d : Nat) : s.index d = seedWord seed d % modulus := by
  obtain ⟨hsource, hmodulus, hpage, hcursor⟩ := fields_ofSeed h
  have hdrawn : s.drawn = 0 := by simp [drawn, hpage, hcursor]
  have hplace : 8 * d = 4 * (2 * d) := by omega
  rw [index, hsource, hmodulus, hdrawn, Nat.zero_add, ← Keystream.value_doubleWord, seedWord,
    hplace]

theorem answers_eq {seed : Seed} {modulus : Nat} {s : IndexSampler}
    (h : ofSeed seed modulus = .ok s) (calls : List Call) :
    (serve answer calls s).1 =
      (List.range calls.length).map fun d => some (seedWord seed d % modulus) := by
  apply List.ext_getElem?
  intro d
  rw [getElem?_serve answer_snd, List.getElem?_map]
  by_cases hd : d < calls.length
  · rw [List.getElem?_eq_getElem hd, List.getElem?_range hd, Option.map_some, Option.map_some,
      answer_eq, next_afterDraws, index_eq_seedWord h]
  · rw [List.getElem?_eq_none (by omega), List.getElem?_eq_none (by simpa using hd)]
    rfl

theorem place_afterDraws {seed : Seed} {modulus : Nat} {s : IndexSampler}
    (h : ofSeed seed modulus = .ok s) (n : Nat) :
    (afterDraws next n s).drawn = n ∧ (afterDraws next n s).page = (n - 1) / poolSize := by
  obtain ⟨-, -, hpage, hcursor⟩ := fields_ofSeed h
  have hdrawn : (afterDraws next n s).drawn = n := by
    rw [drawn_afterDraws, drawn, hpage, hcursor]
    omega
  refine ⟨hdrawn, ?_⟩
  cases n with
  | zero => exact hpage
  | succ n => exact page_of_last_draw hdrawn (cursor_afterDraws_pos n s) (cursor_le _)

/-- However its indices are drawn, a sampler draws the double words of its keystream one after the
other, reduced by its modulus; one whose modulus divides this draws the remainders. -/
theorem calls_read_double_words (seed : Seed) {modulus : Nat} (h : 0 < modulus)
    (calls : List Call) :
    ∃ s s', ofSeed seed modulus = .ok s ∧
      serve answer calls s =
        ((List.range calls.length).map fun d => some (seedWord seed d % modulus), s') ∧
      (∀ d, seedWord seed d % modulus < modulus) ∧
      s'.drawn = calls.length ∧ s'.page = (calls.length - 1) / poolSize ∧
      ∀ divisor, divisor ∣ modulus → ∀ calls' : List Call,
        ∃ t t', ofSeed seed divisor = .ok t ∧
          serve answer calls' t =
            ((List.range calls'.length).map fun d =>
              some (seedWord seed d % modulus % divisor), t') := by
  obtain ⟨s, hs⟩ := ofSeed_ok seed h
  obtain ⟨hdrawn, hpage⟩ := place_afterDraws hs calls.length
  have hlast := serve_snd answer_snd calls s
  refine ⟨s, (serve answer calls s).2, hs, ?_, fun d => Nat.mod_lt _ h, ?_, ?_, ?_⟩
  · rw [← answers_eq hs]
  · rw [hlast, hdrawn]
  · rw [hlast, hpage]
  · intro divisor hdvd calls'
    obtain ⟨t, ht⟩ := ofSeed_ok seed (Nat.pos_of_dvd_of_pos hdvd h)
    refine ⟨t, (serve answer calls' t).2, ht, ?_⟩
    simp only [Nat.mod_mod_of_dvd _ hdvd]
    rw [← answers_eq ht]

theorem calls_read_double_words_below_six :
    0 < 6 ∧ 3 ∣ 6 ∧
      ∃ s s', ofSeed 7#128 6 = .ok s ∧
        serve answer [.get, .next] s =
          ((List.range 2).map fun d => some (seedWord 7#128 d % 6), s') ∧
        s'.drawn = 2 ∧
        ∃ t t', ofSeed 7#128 3 = .ok t ∧
          serve answer [.next] t =
            ((List.range 1).map fun d => some (seedWord 7#128 d % 6 % 3), t') := by
  have h : 0 < 6 := by decide
  have hdvd : 3 ∣ 6 := by decide
  obtain ⟨s, s', hs, hserve, -, hdrawn, -, hdivisor⟩ :=
    calls_read_double_words 7#128 h [.get, .next]
  exact ⟨h, hdvd, s, s', hs, hserve, hdrawn, hdivisor 3 hdvd [.next]⟩

end IndexSampler
end ExpandConvolute
