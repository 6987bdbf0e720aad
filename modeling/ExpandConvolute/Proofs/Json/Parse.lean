import ExpandConvolute.Json.Parse
import ExpandConvolute.Proofs.Json.Token
import Mathlib.Data.List.Forall2

/-!
# ExpandConvolute.Proofs.Json.Parse

Parsing the text of an object. A written member is a name and the text of a value; `Written m e`
says that the member `m` stands for the entry `e`. The members of an object are read off one after
the other (`scans_members`), each token of an entry goes where it belongs (`run_members`), and so
`parse_object`: a text of members without blanks parses to the object of their entries, whatever
the members are and in whatever order they stand.
-/

namespace ExpandConvolute
namespace Json

open Token

def memberText (m : String × String) : List Char :=
  '"' :: (m.1.toList ++ ['"']) ++ ':' :: m.2.toList

/-- The tokens of an entry, after the mark in front of it. -/
def memberTokens (e : String × Value) : List Token :=
  [.scalar (.string (some e.1)), .colon, .scalar e.2]

structure Written (m : String × String) (e : String × Value) : Prop where
  name_eq : m.1 = e.1
  plain : ∀ c ∈ m.1.toList, Plain c
  spells : Spells m.2.toList e.2

def entry (e : String × Value) : Option String × Value := (some e.1, e.2)

/-! ## Scanning the members -/

/-- A written member leaves the text of its value pending. -/
theorem Written.scans {m : String × String} {e : String × Value} (h : Written m e) :
    ∃ mode, Scans .idle (memberText m) [.scalar (.string (some e.1)), .colon] mode ∧
      Holds mode e.2 := by
  obtain ⟨mode, hvalue, hholds⟩ := h.spells
  have hname := scans_string h.plain
  rw [String.ofList_toList, h.name_eq] at hname
  have hcolon : Scans .idle (':' :: m.2.toList) [.colon] mode := .emit rfl hvalue
  rw [memberText, h.name_eq]
  exact ⟨mode, hname.trans hcolon, hholds⟩

/-- The members that follow a value, up to the end of the object. -/
theorem scans_members {ms : List (String × String)} {es : List (String × Value)}
    (h : List.Forall₂ Written ms es) {mode : Mode} {v : Value} (hv : Holds mode v) :
    Scans mode (ms.flatMap (fun m => ',' :: memberText m) ++ ['\x7d'])
      (.scalar v :: es.flatMap (fun e => .comma :: memberTokens e) ++ [.closeObject]) .idle := by
  induction h generalizing mode v with
  | nil => exact .single hv.closeObject
  | @cons m e ms es hm _ ih =>
    obtain ⟨mode', hmember, hholds⟩ := hm.scans
    have hcomma : Scans mode [','] [.scalar v, .comma] .idle := .single hv.comma
    have hrest := (hcomma.trans hmember).trans (ih hholds)
    simpa [memberTokens] using hrest

/-! ## Building the object -/

namespace Progress

variable {stack : List Open}

theorem run_member (acc : List (Option String × Value)) (e : String × Value)
    (tokens : List Token) :
    run (.inside .key (.object acc :: stack)) (memberTokens e ++ tokens) =
      run (.inside .commaOrEnd (.object (entry e :: acc) :: stack)) tokens := rfl

/-- The members that follow are added to those before them. -/
theorem run_members (acc : List (Option String × Value)) (es : List (String × Value)) :
    run (.inside .commaOrEnd (.object acc :: stack))
      (es.flatMap (fun e => .comma :: memberTokens e) ++ [.closeObject]) =
      close (.object (acc.reverse ++ es.map entry)) stack := by
  induction es generalizing acc with
  | nil =>
    rw [List.map_nil, List.append_nil]
    exact Option.bind_fun_some _
  | cons e es ih =>
    rw [List.flatMap_cons, List.append_assoc, List.cons_append]
    show run (.inside .key (.object acc :: stack)) (memberTokens e ++ _) = _
    rw [run_member, ih, List.reverse_cons, List.append_assoc, List.singleton_append,
      List.map_cons]

end Progress

/-! ## The text of an object -/

def objectChars (ms : List (String × String)) : List Char :=
  '\x7b' :: ([','].intercalate (ms.map memberText) ++ ['\x7d'])

theorem intercalate_cons (m : String × String) (ms : List (String × String)) :
    [','].intercalate ((m :: ms).map memberText) =
      memberText m ++ ms.flatMap fun m => ',' :: memberText m := by
  induction ms generalizing m with
  | nil => simp
  | cons m' ms ih =>
    rw [List.map_cons, List.map_cons, List.intercalate_cons_cons, ← List.map_cons, ih]
    simp

theorem parse_object {ms : List (String × String)} {es : List (String × Value)}
    (h : List.Forall₂ Written ms es) :
    parse (objectChars ms) = some (.object (es.map entry)) := by
  cases h with
  | nil => rfl
  | @cons m e ms es hm hms =>
    obtain ⟨mode, hmember, hholds⟩ := hm.scans
    have hopen : Scans .idle ['\x7b'] [.openObject] .idle := .single rfl
    have hscan := ((hopen.trans hmember).trans (scans_members hms hholds)).scan_eq
    have hchars : objectChars (m :: ms) = ['\x7b'] ++ memberText m ++
        (ms.flatMap (fun m => ',' :: memberText m) ++ ['\x7d']) := by
      rw [objectChars, intercalate_cons]
      simp
    have hrun : Progress.run (.inside .value []) (.openObject :: (memberTokens e ++
        (es.flatMap (fun e => .comma :: memberTokens e) ++ [.closeObject]))) =
        some (.complete (.object ((e :: es).map entry))) :=
      Progress.run_members [entry e] es
    rw [parse, hchars, hscan]
    exact congrArg (Option.bind · _) hrun

end Json
end ExpandConvolute
