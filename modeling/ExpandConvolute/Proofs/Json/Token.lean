import ExpandConvolute.Json.Token
import Mathlib.Data.List.TakeWhile

/-!
# ExpandConvolute.Proofs.Json.Token

Scanning what has been written. The scanner reads one character at a time, so a text is scanned part
by part: `Scans m cs ts m'` says that the characters `cs`, read in mode `m`, complete the tokens `ts`
and leave the mode `m'`, whatever follows. `Scans.trans` puts two parts together.

Numbers and words are complete only when a mark follows. `Spells cs v` says that `cs` is a text of
the value `v` in this sense.

* `spells_number`: the decimal digits of a number spell it, however large it is.
* `spells_true`, `spells_false`: the words of the truth values.
* `scans_string`: a text without quotes, backslashes and control characters, put in quotes, is a
  string token of that text.
-/

namespace ExpandConvolute
namespace Json
namespace Token

/-! ## Parts of a text -/

def Scans (m : Mode) (cs : List Char) (ts : List Token) (m' : Mode) : Prop :=
  ∀ rest, scanFrom m (cs ++ rest) = (scanFrom m' rest).map (ts ++ ·)

namespace Scans

variable {m m' m'' : Mode} {cs cs' : List Char} {ts ts' : List Token} {c : Char}

theorem refl (m : Mode) : Scans m [] [] m := by
  intro rest
  simp

theorem single (h : advance m c = some (ts, m')) : Scans m [c] ts m' := by
  intro rest
  rw [List.cons_append, List.nil_append, scanFrom, h, Option.map_eq_bind]
  rfl

theorem trans (h : Scans m cs ts m') (h' : Scans m' cs' ts' m'') :
    Scans m (cs ++ cs') (ts ++ ts') m'' := by
  intro rest
  rw [List.append_assoc, h, h', Option.map_map]
  simp [Function.comp_def, List.append_assoc]

/-- A character that completes no token. -/
theorem skip (h : advance m c = some ([], m')) (h' : Scans m' cs ts m'') :
    Scans m (c :: cs) ts m'' := (single h).trans h'

/-- A character that completes one token. -/
theorem emit {t : Token} (h : advance m c = some ([t], m')) (h' : Scans m' cs ts m'') :
    Scans m (c :: cs) (t :: ts) m'' := (single h).trans h'

theorem scan_eq (h : Scans .idle cs ts .idle) : scan cs = some ts := by
  have hend := h []
  rw [List.append_nil] at hend
  rw [scan, hend, scanFrom, finish, Option.map_some, List.append_nil]

end Scans

/-! ## Strings -/

/-- A character that stands for itself inside a string. -/
def Plain (c : Char) : Prop := c ≠ '"' ∧ c ≠ '\\' ∧ 0x20 ≤ c.toNat

instance (c : Char) : Decidable (Plain c) := inferInstanceAs (Decidable (_ ∧ _ ∧ _))

theorem advance_plain {c : Char} (h : Plain c) (units : List Nat) :
    advance (.text units) c = some ([], .text (c.toNat :: units)) := by
  obtain ⟨hquote, hbackslash, hcontrol⟩ := h
  rw [advance, if_neg hquote, if_neg hbackslash, if_neg (by omega)]

theorem scans_plain {cs : List Char} (h : ∀ c ∈ cs, Plain c) (units : List Nat) :
    Scans (.text units) cs [] (.text ((cs.map Char.toNat).reverse ++ units)) := by
  induction cs generalizing units with
  | nil => exact .refl _
  | cons c cs ih =>
    obtain ⟨hc, hcs⟩ := List.forall_mem_cons.mp h
    have hrest := ih hcs (c.toNat :: units)
    rw [List.map_cons, List.reverse_cons, List.append_assoc]
    exact .skip (advance_plain hc units) hrest

/-- No character is half of a surrogate pair. -/
theorem not_surrogate (c : Char) : isLead c.toNat = false ∧ isTrail c.toNat = false := by
  have hvalid := c.valid
  simp only [isLead, isTrail, Bool.and_eq_false_imp, decide_eq_true_eq, decide_eq_false_iff_not]
  simp only [UInt32.isValidChar, Nat.isValidChar] at hvalid
  have : c.toNat = c.val.toNat := rfl
  omega

theorem textOfUnits_toNat (cs : List Char) : textOfUnits (cs.map Char.toNat) = some cs := by
  induction cs with
  | nil => rfl
  | cons c cs ih =>
    obtain ⟨hlead, htrail⟩ := not_surrogate c
    cases cs with
    | nil => simp [textOfUnits, hlead, htrail, Char.ofNat_toNat]
    | cons d cs =>
      rw [List.map_cons] at ih
      simp [textOfUnits, hlead, htrail, ih, Char.ofNat_toNat]

theorem scans_string {cs : List Char} (h : ∀ c ∈ cs, Plain c) :
    Scans .idle ('"' :: (cs ++ ['"'])) [.scalar (.string (some (String.ofList cs)))] .idle := by
  have hend : advance (.text ((cs.map Char.toNat).reverse ++ [])) '"' =
      some ([.scalar (.string (some (String.ofList cs)))], .idle) := by
    rw [advance, if_pos rfl, List.append_nil, List.reverse_reverse, ofText, textOfUnits_toNat]
    rfl
  exact .skip rfl ((scans_plain h []).trans (.single hend))

/-! ## Values that end at a mark -/

/-- The mode holds the whole text of a value, and a mark after it completes both. -/
structure Holds (m : Mode) (v : Value) : Prop where
  comma : advance m ',' = some ([.scalar v, .comma], .idle)
  closeObject : advance m '\x7d' = some ([.scalar v, .closeObject], .idle)

def Spells (cs : List Char) (v : Value) : Prop := ∃ m, Scans .idle cs [] m ∧ Holds m v

theorem holds_word {cs : List Char} {v : Value} (h : ofWord cs.reverse = some (.scalar v)) :
    Holds (.word cs) v := by
  constructor
  · simp only [advance, h]
    rfl
  · simp only [advance, h]
    rfl

theorem holds_numeral {cs : List Char} {v : Value} (h : ofNumeral cs.reverse = some (.scalar v)) :
    Holds (.numeral cs) v := by
  constructor
  · simp only [advance, h]
    rfl
  · simp only [advance, h]
    rfl

theorem spells_true : Spells "true".toList (.bool true) :=
  ⟨.word ['e', 'u', 'r', 't'], .skip rfl (.skip rfl (.skip rfl (.skip rfl (.refl _)))),
    holds_word rfl⟩

theorem spells_false : Spells "false".toList (.bool false) :=
  ⟨.word ['e', 's', 'l', 'a', 'f'],
    .skip rfl (.skip rfl (.skip rfl (.skip rfl (.skip rfl (.refl _))))), holds_word rfl⟩

/-! ## Decimal digits -/

theorem isDigit_eq (c : Char) : isDigit c = c.isDigit := by
  rw [Bool.eq_iff_iff]
  simp [isDigit, Char.isDigit, Char.le_def]

theorem digitsValue_eq (n : Nat) (cs : List Char) : digitsValue n cs = Nat.ofDigitChars 10 cs n := by
  induction cs generalizing n with
  | nil => rfl
  | cons c cs ih =>
    rw [Nat.ofDigitChars_cons]
    exact ih _

theorem isDigit_of_mem {n : Nat} {c : Char} (h : c ∈ Nat.toDigits 10 n) : isDigit c = true :=
  (isDigit_eq c).trans (Nat.isDigit_of_mem_toDigits (by decide) (by decide) h)

/-- The digits of a positive number do not begin with a zero. -/
theorem head_toDigits {n : Nat} (h : 0 < n) : (Nat.toDigits 10 n).head? ≠ some '0' := by
  induction n using Nat.strongRecOn with
  | ind n ih =>
    rw [Nat.toDigits_eq_if (by decide)]
    split
    · rw [List.head?_cons, ne_eq, Option.some_inj, Nat.digitChar_eq_zero]
      omega
    · rw [List.head?_append]
      cases hd : (Nat.toDigits 10 (n / 10)).head? with
      | none => exact absurd (List.head?_eq_none_iff.mp hd) Nat.toDigits_ne_nil
      | some c =>
        rw [Option.some_or, ← hd]
        exact ih (n / 10) (by omega) (by omega)

theorem afterDigits_of_digits {c : Char} {cs : List Char} (h : ∀ d ∈ c :: cs, isDigit d = true) :
    afterDigits (c :: cs) = some [] := by
  obtain ⟨hc, hcs⟩ := List.forall_mem_cons.mp h
  rw [afterDigits, if_pos hc, List.dropWhile_eq_nil_iff.mpr hcs]

/-- A number is written without superfluous zeros. -/
theorem afterInteger_toDigits (n : Nat) : afterInteger (Nat.toDigits 10 n) = some [] := by
  cases n with
  | zero => rfl
  | succ n =>
    have hhead := head_toDigits (Nat.succ_pos n)
    have hdigits : ∀ c ∈ Nat.toDigits 10 (n + 1), isDigit c = true := fun _ => isDigit_of_mem
    cases hcs : Nat.toDigits 10 (n + 1) with
    | nil => exact absurd hcs Nat.toDigits_ne_nil
    | cons c cs =>
      rw [hcs] at hhead hdigits
      have hzero : c ≠ '0' := fun h => hhead (congrArg some h)
      rw [← afterDigits_of_digits hdigits]
      unfold afterInteger
      split
      · rename_i h
        cases h
        exact absurd rfl hzero
      · rfl

theorem afterNumber_toDigits (n : Nat) : afterNumber (Nat.toDigits 10 n) = some [] := by
  have hinteger := afterInteger_toDigits n
  unfold afterNumber
  split
  · rename_i cs hcs
    have hminus : isDigit '-' = true := isDigit_of_mem (hcs ▸ List.mem_cons_self)
    cases hminus
  · show (afterInteger _ >>= fun cs => afterFraction cs >>= afterExponent) = _
    rw [hinteger]
    rfl

theorem ofNumeral_toDigits (n : Nat) :
    ofNumeral (Nat.toDigits 10 n) = some (.scalar (.number (some n))) := by
  have hall : (Nat.toDigits 10 n).all isDigit = true :=
    List.all_eq_true.mpr fun _ => isDigit_of_mem
  rw [ofNumeral, if_pos (afterNumber_toDigits n), if_pos hall, digitsValue_eq,
    Nat.ofDigitChars_ten_toDigits]

theorem begin_digit {c : Char} (h : isDigit c = true) : begin c = some ([], .numeral [c]) := by
  have hblank : isBlank c = false := by
    by_contra hblank
    simp only [isBlank, Bool.or_eq_true, decide_eq_true_eq, Bool.not_eq_false] at hblank
    obtain ((rfl | rfl) | rfl) | rfl := hblank <;> cases h
  have hquote : c ≠ '"' := by
    rintro rfl
    cases h
  rw [begin, hblank, if_neg Bool.false_ne_true, if_neg hquote, if_pos (.inr h)]

theorem scans_digits {cs : List Char} (h : ∀ c ∈ cs, isDigit c = true) (ds : List Char) :
    Scans (.numeral ds) cs [] (.numeral (cs.reverse ++ ds)) := by
  induction cs generalizing ds with
  | nil => exact .refl _
  | cons c cs ih =>
    obtain ⟨hc, hcs⟩ := List.forall_mem_cons.mp h
    have hnumeral : advance (.numeral ds) c = some ([], .numeral (c :: ds)) := by
      simp [advance, isNumeral, hc]
    rw [List.reverse_cons, List.append_assoc]
    exact .skip hnumeral (ih hcs (c :: ds))

/-- A number is spelled by its decimal digits, however many there are. -/
theorem spells_number (n : Nat) : Spells (Nat.repr n).toList (.number (some n)) := by
  rw [Nat.repr_eq_ofList_toDigits, String.toList_ofList]
  have hdigits : ∀ c ∈ Nat.toDigits 10 n, isDigit c = true := fun _ => isDigit_of_mem
  have hvalue := ofNumeral_toDigits n
  cases hcs : Nat.toDigits 10 n with
  | nil => exact absurd hcs Nat.toDigits_ne_nil
  | cons c cs =>
    rw [hcs] at hdigits hvalue
    obtain ⟨hc, hcs⟩ := List.forall_mem_cons.mp hdigits
    refine ⟨_, .skip (begin_digit hc) (scans_digits hcs [c]), holds_numeral ?_⟩
    rw [List.reverse_append, List.reverse_reverse]
    exact hvalue

end Token
end Json
end ExpandConvolute
