import ExpandConvolute.Parameters.Text
import ExpandConvolute.Proofs.Json.Parse
import Mathlib.Data.List.Perm.Basic

/-!
# ExpandConvolute.Proofs.Parameters.RoundTrip

Reading parameters back. The members that `toText` writes stand for the entries of `entries`
(`written_members`). Reading looks every name up among the entries of the parsed object, so their
order is of no consequence (`ofValue?_of_perm`), and every value comes back with all of its bits.
Nothing is asked of the parameters: also those that no code is made from are read back.
-/

namespace ExpandConvolute
namespace Parameters

open Json Json.Token

/-- The names of the parameters and their values, in written order. -/
def entries (P : Parameters) : List (String × Value) := [
  ("message_size", .number (some P.messageSize.toNat)),
  ("code_size", .number (some P.codeSize.toNat)),
  ("expander_weight", .number (some P.weight.toNat)),
  ("accumulator_width", .number (some P.width.toNat)),
  ("systematic", .bool P.systematic),
  ("regular_expander", .bool P.regular),
  ("mix_twice", .bool P.secondSweep),
  ("seed", .number (some P.seed.toNat))]

/-! ## What is written -/

theorem spells_flag (b : Bool) : Spells (flagText b).toList (.bool b) := by
  cases b with
  | false => exact spells_false
  | true => exact spells_true

theorem plain_names (P : Parameters) : ∀ m ∈ P.members, ∀ c ∈ m.1.toList, Plain c := by
  -- As a Boolean, so that it is decided by running over the names and not over all characters.
  have hnames : ∀ name ∈ P.members.map Prod.fst, name.toList.all (Plain ·) = true := by
    simp only [members, List.map_cons, List.map_nil]
    decide
  intro m hm c hc
  have hall := hnames m.1 (List.mem_map_of_mem hm)
  exact of_decide_eq_true (List.all_eq_true.mp hall c hc)

theorem written_members (P : Parameters) : List.Forall₂ Written P.members P.entries := by
  have hspells : List.Forall₂ (fun m e => m.1 = e.1 ∧ Spells m.2.toList e.2)
      P.members P.entries :=
    .cons ⟨rfl, spells_number _⟩ <| .cons ⟨rfl, spells_number _⟩ <|
    .cons ⟨rfl, spells_number _⟩ <| .cons ⟨rfl, spells_number _⟩ <|
    .cons ⟨rfl, spells_flag _⟩ <| .cons ⟨rfl, spells_flag _⟩ <|
    .cons ⟨rfl, spells_flag _⟩ <| .cons ⟨rfl, spells_number _⟩ .nil
  have hboth := (List.forall₂_and_left _ _).mpr ⟨P.plain_names, hspells⟩
  exact hboth.imp fun m e h => ⟨h.2.1, h.1, h.2.2⟩

/-! ## What is read -/

theorem sizeOf?_toNat (n : UInt64) : sizeOf? (.number (some n.toNat)) = some n := by
  have hlt : n.toNat < sizeLimit := n.toNat_lt
  rw [sizeOf?, if_pos hlt, UInt64.ofNat_toNat]

theorem seedOf?_toNat (s : Seed) : seedOf? (.number (some s.toNat)) = some s := by
  have hlt : s.toNat < sizeLimit * sizeLimit := s.isLt
  rw [seedOf?, if_pos hlt, BitVec.ofNat_toNat, BitVec.setWidth_eq]

theorem ofValues?_entries (P : Parameters) :
    ofValues? (.number (some P.messageSize.toNat)) (.number (some P.codeSize.toNat))
      (.number (some P.weight.toNat)) (.number (some P.width.toNat)) (.bool P.systematic)
      (.bool P.regular) (.bool P.secondSweep) (.number (some P.seed.toNat)) = some P := by
  simp only [ofValues?, sizeOf?_toNat, seedOf?_toNat, flagOf?]
  rfl

/-- Where no key is repeated, one member has the key. -/
theorem filter_key {vs : List (Option String × Value)} (hnodup : (vs.map Prod.fst).Nodup)
    {key : Option String} {v : Value} (hmem : (key, v) ∈ vs) :
    vs.filter (fun m => m.1 = key) = [(key, v)] := by
  induction vs with
  | nil => cases hmem
  | cons m vs ih =>
    obtain ⟨hnew, hnodup⟩ := List.nodup_cons.mp hnodup
    cases hmem with
    | head =>
      have hrest : vs.filter (fun m => m.1 = key) = [] := by
        rw [List.filter_eq_nil_iff]
        intro m hm hkey
        have hold : m.1 ∈ vs.map Prod.fst := List.mem_map_of_mem hm
        rw [of_decide_eq_true hkey] at hold
        exact hnew hold
      rw [List.filter_cons, if_pos (decide_eq_true rfl), hrest]
    | tail _ hmem =>
      have hkey : m.1 ≠ key := fun hkey => hnew (hkey ▸ List.mem_map_of_mem hmem)
      rw [List.filter_cons, if_neg (by simpa using hkey), ih hnodup hmem]

/-- Where no name is repeated, each is looked up to its own value. -/
theorem member?_eq_some {vs : List (Option String × Value)} (hnodup : (vs.map Prod.fst).Nodup)
    {name : String} {v : Value} (hmem : (some name, v) ∈ vs) : member? vs name = some v := by
  rw [member?, filter_key hnodup hmem]

theorem nodup_names (P : Parameters) : ((P.entries.map entry).map Prod.fst).Nodup := by
  simp only [entries, entry, List.map_cons, List.map_nil]
  decide

theorem ofValue?_of_perm {P : Parameters} {es : List (String × Value)} (h : es.Perm P.entries) :
    ofValue? (.object (es.map entry)) = some P := by
  have hnames : ((es.map entry).map Prod.fst).Nodup :=
    ((h.map entry).map Prod.fst).nodup_iff.mpr P.nodup_names
  have hlookup : ∀ e ∈ P.entries, member? (es.map entry) e.1 = some e.2 := fun e he =>
    member?_eq_some hnames (List.mem_map_of_mem (f := entry) (h.mem_iff.mpr he))
  have hkeys : (es.map entry).all (fun m => m.1.isSome) = true := by
    simp [entry]
  simp only [entries, List.forall_mem_cons] at hlookup
  obtain ⟨h₁, h₂, h₃, h₄, h₅, h₆, h₇, h₈, -⟩ := hlookup
  rw [ofValue?, if_pos hkeys, h₁, h₂, h₃, h₄, h₅, h₆, h₇, h₈]
  exact P.ofValues?_entries

/-! ## The text -/

theorem toList_objectText (ms : List (String × String)) :
    (objectText ms).toList = objectChars ms := by
  have hmembers : (ms.map fun m => "\"" ++ m.1 ++ "\":" ++ m.2).map String.toList =
      ms.map memberText := by
    simp [memberText, Function.comp_def]
  simp only [objectText, String.toList_append, String.toList_intercalate, hmembers]
  rfl

theorem ofText?_objectText {P : Parameters} {ms : List (String × String)}
    (h : ms.Perm P.members) : ofText? (objectText ms) = some P := by
  obtain ⟨es, hwritten, hes⟩ := List.perm_comp_forall₂ h P.written_members
  rw [ofText?, toList_objectText, parse_object hwritten, Option.bind_some, ofValue?_of_perm hes]

/-- Parameters are read back from the text that is written for them, and from the same members in
any other order. A text that is read at all therefore gives parameters whose own text is read
alike. -/
theorem text_round_trip :
    (∀ P : Parameters, ofText? P.toText = some P) ∧
    (∀ (P : Parameters) (ms : List (String × String)), ms.Perm P.members →
      ofText? (objectText ms) = some P) ∧
    (∀ (s : String) (P : Parameters), ofText? s = some P → ofText? P.toText = ofText? s) := by
  have hwritten : ∀ P : Parameters, ofText? P.toText = some P := fun P =>
    ofText?_objectText (.refl _)
  refine ⟨hwritten, fun P ms h => ofText?_objectText h, fun s P h => ?_⟩
  rw [hwritten P, h]

theorem text_round_trip_at_limits :
    let P : Parameters := {
      messageSize := 18446744073709551615
      codeSize := 0
      weight := 7
      width := 64
      systematic := true
      regular := false
      secondSweep := true
      seed := 340282366920938463463374607431768211455#128 }
    let s := "[18446744073709551615, 0, 7, 64, true, false, true, " ++
      "340282366920938463463374607431768211455]"
    P.members.reverse.Perm P.members ∧ ofText? (objectText P.members.reverse) = some P ∧
      ofText? s = some P ∧ ofText? P.toText = ofText? s := by
  intro P s
  have horder : P.members.reverse.Perm P.members := List.reverse_perm _
  have hs : ofText? s = some P := by decide +kernel
  exact ⟨horder, text_round_trip.2.1 P _ horder, hs, text_round_trip.2.2 s P hs⟩

end Parameters
end ExpandConvolute
