import ExpandConvolute.Code.Encode
import ExpandConvolute.Proofs.Code.Outcome

/-!
# ExpandConvolute.Proofs.Code.Keystreams

The keystreams of a code. An encoding draws from the windows of its sweeps and from the samplers of
its expansion, and from nothing else (`Readers`, `DrawsFrom`). Each of these readers has a keystream
of its own, in one of four roles.

* `Keystream.ofSeed_inj`: a keystream determines its seed and its consumer.
* `uses_iff`: the keystream of a role comes from the seed of the code with a constant of the role
  added. The complement of a seed is the seed with all ones added.
* `keystreams_separate`: the roles of a code never share a keystream, and two codes do only if their
  seeds differ by just what two roles of one consumer differ by.
-/

namespace ExpandConvolute

/-! ## Keystreams and seeds -/

theorem Keystream.getElem_key_ofSeed (seed : Seed) (stream : UInt64) (i : Nat) (h : i < 8) :
    (ofSeed seed stream).key[i] = ⟨(~~~seed ++ seed).extractLsb' (32 * i) 32⟩ := by
  simp [ofSeed]

/-- The first half of the key is the seed itself. -/
theorem Keystream.getLsbD_key_ofSeed (seed : Seed) (stream : UInt64) {j : Nat} (h : j < 128) :
    ((ofSeed seed stream).key[j / 32]).toBitVec.getLsbD (j % 32) = seed.getLsbD j := by
  have hj : 32 * (j / 32) + j % 32 = j := Nat.div_add_mod j 32
  have hlt : j % 32 < 32 := Nat.mod_lt _ (by omega)
  rw [getElem_key_ofSeed]
  show ((~~~seed ++ seed).extractLsb' (32 * (j / 32)) 32).getLsbD (j % 32) = _
  rw [BitVec.getLsbD_extractLsb', hj, decide_eq_true hlt, Bool.true_and, BitVec.getLsbD_append,
    if_pos h]

theorem Keystream.ofSeed_inj {s t : Seed} {a b : UInt64} :
    ofSeed s a = ofSeed t b ↔ s = t ∧ a = b := by
  constructor
  · intro h
    refine ⟨?_, congrArg Keystream.stream h⟩
    apply BitVec.eq_of_getLsbD_eq
    intro j hj
    rw [← getLsbD_key_ofSeed s a hj, ← getLsbD_key_ofSeed t b hj, h]
  · rintro ⟨rfl, rfl⟩
    rfl

/-- Two seeds with constants added are equal if they differ by what the constants differ by. -/
theorem Seed.xor_eq_xor_iff (s t a b : Seed) : s ^^^ a = t ^^^ b ↔ t = s ^^^ (a ^^^ b) := by
  rw [← BitVec.xor_assoc]
  constructor
  · intro h
    rw [h, BitVec.xor_assoc, BitVec.xor_self, BitVec.xor_zero]
  · rintro rfl
    rw [BitVec.xor_assoc, BitVec.xor_self, BitVec.xor_zero]

/-! ## Readers -/

namespace Convolution

variable {σ : Type}

/-- The windows of the sweeps of a convolution. -/
def windows (C : Convolution) (seed : Seed) : List Windows :=
  (C.seeds seed).map fun s => .ofSeed s C.width C.width_le

theorem apply_eq_sweepWith (C : Convolution) (A : Alphabet σ) (seed : Seed) :
    C.apply A seed = (C.windows seed).forM (C.sweepWith A C.stepper) := by
  rw [apply, windows, List.forM_eq_forM, List.forM_eq_forM, List.forM_map]
  congr 1
  funext s
  exact C.sweep_eq_sweepWith A C.accepts_stepper s

theorem sources_windows (C : Convolution) (seed : Seed) :
    (C.windows seed).map (·.source) =
      if C.secondSweep then
        [.ofSeed seed coefficientStream, .ofSeed (~~~seed) coefficientStream]
      else
        [.ofSeed seed coefficientStream] := by
  rw [windows, seeds]
  split
  · rfl
  · rfl

theorem length_windows_le (C : Convolution) (seed : Seed) : (C.windows seed).length ≤ 2 := by
  rw [windows, List.length_map, length_seeds]
  split <;> omega

end Convolution

namespace Expansion

theorem picks_eq_picksFrom (E : Expansion) {S : Samplers} (h : E.samplers = .ok S) :
    E.picks = E.picksFrom S := by
  show (E.samplers >>= _) = _
  rw [h]
  rfl

/-- Once the samplers are made, the seed is of no further use. -/
theorem pickGroups_seed (E : Expansion) (seed : Seed) (group count row : Nat) (samplers : Samplers)
    (picks : Array Pick) :
    { E with seed }.pickGroups group count row samplers picks =
      E.pickGroups group count row samplers picks := by
  induction count generalizing row samplers picks with
  | zero => rfl
  | succ count ih =>
    simp only [pickGroups, ih]
    rfl

theorem picksFrom_seed (E : Expansion) (seed : Seed) (samplers : Samplers) :
    { E with seed }.picksFrom samplers = E.picksFrom samplers := by
  simp only [picksFrom, pickGroups_seed]

end Expansion

namespace Code

open ExpandConvolute.Convolution (Windows coefficientStream)

/-- Everything that an encoding draws from. -/
structure Readers where
  sweeps : List Windows
  samplers : Expansion.Samplers

def readers (code : Code) : Except Fault Readers := do
  let samplers ← code.expansion.samplers
  return ⟨code.convolution.windows code.parameters.seed, samplers⟩

/-- The convolution draws from the windows that are given, and the expansion from the samplers.
Nothing else in either of them depends on the seed. -/
structure DrawsFrom (code : Code) (R : Readers) : Prop where
  convolution : ∀ (σ : Type) (A : Alphabet σ),
    code.convolution.apply A code.parameters.seed =
      R.sweeps.forM (code.convolution.sweepWith A code.convolution.stepper)
  expansion : ∀ seed : Seed,
    code.expansion.picks = { code.expansion with seed }.picksFrom R.samplers

theorem readers_ok (code : Code) :
    ∃ R, code.readers = .ok R ∧ code.DrawsFrom R ∧
      R.sweeps = code.convolution.windows code.parameters.seed ∧
      R.samplers.Seeded code.expansion := by
  obtain ⟨S, hS, hseeded⟩ := code.expansion.samplers_ok
  refine ⟨⟨code.convolution.windows code.parameters.seed, S⟩, ?_, ⟨?_, ?_⟩, rfl, hseeded⟩
  · rw [readers, hS]
    rfl
  · intro σ A
    exact code.convolution.apply_eq_sweepWith A code.parameters.seed
  · intro seed
    rw [code.expansion.picksFrom_seed]
    exact code.expansion.picks_eq_picksFrom hS

/-! ## Roles -/

/-- What a keystream is read for. -/
inductive Role where
  | firstSweep
  | secondSweep
  /-- The sources that are drawn from all columns. -/
  | whole
  /-- The sources that are drawn from strata. -/
  | strata
deriving DecidableEq, Repr

def Readers.keystream (R : Readers) : Role → Option Keystream
  | .firstSweep => (R.sweeps.map (·.source))[0]?
  | .secondSweep => (R.sweeps.map (·.source))[1]?
  | .whole => some R.samplers.whole.source
  | .strata => R.samplers.stratum.map (·.source)

/-- All keystreams that are drawn from. -/
def Readers.sources (R : Readers) : List Keystream :=
  R.sweeps.map (·.source) ++ R.samplers.whole.source :: (R.samplers.stratum.map (·.source)).toList

/-- With two sweeps at most, the four roles are all there is. -/
theorem Readers.mem_sources_iff {R : Readers} (h : R.sweeps.length ≤ 2) (k : Keystream) :
    k ∈ R.sources ↔ ∃ role, R.keystream role = some k := by
  rw [sources, List.mem_append, List.mem_cons, Option.mem_toList, List.mem_iff_getElem?]
  constructor
  · rintro (⟨i, hi⟩ | rfl | hk)
    · match i with
      | 0 => exact ⟨.firstSweep, hi⟩
      | 1 => exact ⟨.secondSweep, hi⟩
      | i + 2 =>
        rw [List.getElem?_eq_none (by rw [List.length_map]; omega)] at hi
        cases hi
    · exact ⟨.whole, rfl⟩
    · exact ⟨.strata, hk⟩
  · rintro ⟨role, hk⟩
    cases role with
    | firstSweep => exact .inl ⟨0, hk⟩
    | secondSweep => exact .inl ⟨1, hk⟩
    | whole => exact .inr (.inl (Option.some.inj hk).symm)
    | strata => exact .inr (.inr hk)

/-- The keystream that an encoding reads in a role. -/
def Uses (code : Code) (role : Role) (k : Keystream) : Prop :=
  ∃ R, code.readers = .ok R ∧ R.keystream role = some k

namespace Role

/-- What is added to the seed of the code, as `^^^`. -/
def tweak : Role → Seed
  | firstSweep => 0#128
  | secondSweep => BitVec.allOnes 128
  | whole => 0#128
  | strata => stratifiedTweak

def stream : Role → UInt64
  | firstSweep => coefficientStream
  | secondSweep => coefficientStream
  | whole => indexStream
  | strata => indexStream

/-- Whether a code has the role at all. -/
def In (code : Code) : Role → Prop
  | firstSweep => True
  | secondSweep => code.parameters.secondSweep = true
  | whole => True
  | strata => 0 < code.expansion.strata

theorem eq_of_tweak {role role' : Role} (hstream : role.stream = role'.stream)
    (htweak : role.tweak = role'.tweak) : role = role' := by
  revert hstream htweak
  cases role <;> cases role' <;> decide

/-- Of two roles of one consumer, one is the second sweep, or one is that of the strata. -/
theorem tweak_xor_of_ne {role role' : Role} (hne : role ≠ role')
    (hstream : role.stream = role'.stream) :
    (role.tweak ^^^ role'.tweak = BitVec.allOnes 128 ∧
      (role = secondSweep ∨ role' = secondSweep)) ∨
    (role.tweak ^^^ role'.tweak = stratifiedTweak ∧ (role = strata ∨ role' = strata)) := by
  revert hne hstream
  cases role <;> cases role' <;> decide

end Role

/-- The keystream of a role is that of the tweaked seed, as far as the code has the role. -/
theorem uses_iff (code : Code) (role : Role) (k : Keystream) :
    code.Uses role k ↔
      role.In code ∧ k = .ofSeed (code.parameters.seed ^^^ role.tweak) role.stream := by
  obtain ⟨R, hR, -, hsweeps, hseeded⟩ := code.readers_ok
  have huses : code.Uses role k ↔ R.keystream role = some k := by
    rw [Uses, hR]
    simp
  have hsources := code.convolution.sources_windows code.parameters.seed
  rw [← hsweeps] at hsources
  rw [huses]
  cases role with
  | firstSweep =>
    show _ ↔ True ∧ k = .ofSeed (code.parameters.seed ^^^ 0#128) coefficientStream
    rw [Readers.keystream, hsources, BitVec.xor_zero]
    cases code.convolution.secondSweep <;> simp [eq_comm]
  | secondSweep =>
    show _ ↔ code.convolution.secondSweep = true ∧
      k = .ofSeed (code.parameters.seed ^^^ BitVec.allOnes 128) coefficientStream
    rw [Readers.keystream, hsources, BitVec.xor_allOnes]
    cases code.convolution.secondSweep <;> simp [eq_comm]
  | whole =>
    show _ ↔ True ∧ k = .ofSeed (code.expansion.seed ^^^ 0#128) indexStream
    rw [Readers.keystream, (IndexSampler.fields_ofSeed hseeded.whole).1, BitVec.xor_zero]
    simp [eq_comm]
  | strata =>
    show _ ↔ 0 < code.expansion.strata ∧
      k = .ofSeed (code.expansion.seed ^^^ stratifiedTweak) indexStream
    rw [Readers.keystream]
    by_cases h : 0 < code.expansion.strata
    · obtain ⟨s, hs, hseed⟩ := hseeded.stratum h
      rw [hs, Option.map_some, (IndexSampler.fields_ofSeed hseed).1]
      simp [h, eq_comm]
    · rw [hseeded.no_stratum (by omega)]
      simp [h]

/-- Two codes have a keystream in common if roles of theirs with one consumer have seeds that differ
by as much as the tweaks of the roles do. -/
theorem exists_uses_both_iff (code code' : Code) (role role' : Role) :
    (∃ k, code.Uses role k ∧ code'.Uses role' k) ↔
      role.In code ∧ role'.In code' ∧ role.stream = role'.stream ∧
        code'.parameters.seed = code.parameters.seed ^^^ (role.tweak ^^^ role'.tweak) := by
  simp only [uses_iff]
  rw [← Seed.xor_eq_xor_iff]
  constructor
  · rintro ⟨k, ⟨hin, rfl⟩, hin', hk⟩
    obtain ⟨hseed, hstream⟩ := Keystream.ofSeed_inj.mp hk
    exact ⟨hin, hin', hstream, hseed⟩
  · rintro ⟨hin, hin', hstream, hseed⟩
    exact ⟨_, ⟨hin, rfl⟩, hin', Keystream.ofSeed_inj.mpr ⟨hseed, hstream⟩⟩

/-- The roles of one code have different keystreams. -/
theorem role_unique (code : Code) {role role' : Role} {k : Keystream} (h : code.Uses role k)
    (h' : code.Uses role' k) : role = role' := by
  obtain ⟨-, -, hstream, hseed⟩ := (exists_uses_both_iff code code role role').mp ⟨k, h, h'⟩
  rw [← Seed.xor_eq_xor_iff, BitVec.xor_right_inj] at hseed
  exact Role.eq_of_tweak hstream hseed

theorem exists_uses_iff (code : Code) (role : Role) : (∃ k, code.Uses role k) ↔ role.In code := by
  simp [uses_iff]

section TwoCodes

variable (code code' : Code)

/-- The conditions on the seeds and on the roles of two codes under which they have a keystream in
common. -/
def Related : Prop :=
  (code'.parameters.seed = ~~~code.parameters.seed ∧
    (code.parameters.secondSweep = true ∨ code'.parameters.secondSweep = true)) ∨
  (code'.parameters.seed = code.parameters.seed ^^^ stratifiedTweak ∧
    (0 < code.expansion.strata ∨ 0 < code'.expansion.strata))

variable {code code'}

theorem related_of_uses (hne : code.parameters.seed ≠ code'.parameters.seed) {k : Keystream}
    {role role' : Role} (h : code.Uses role k) (h' : code'.Uses role' k) :
    code.Related code' := by
  obtain ⟨hin, hin', hstream, hseed⟩ := (exists_uses_both_iff code code' role role').mp ⟨k, h, h'⟩
  have hrole : role ≠ role' := by
    rintro rfl
    rw [BitVec.xor_self, BitVec.xor_zero] at hseed
    exact hne hseed.symm
  rcases Role.tweak_xor_of_ne hrole hstream with ⟨htweak, hsecond⟩ | ⟨htweak, hstrata⟩
  · rw [htweak, BitVec.xor_allOnes] at hseed
    rcases hsecond with rfl | rfl
    · exact .inl ⟨hseed, .inl hin⟩
    · exact .inl ⟨hseed, .inr hin'⟩
  · rw [htweak] at hseed
    rcases hstrata with rfl | rfl
    · exact .inr ⟨hseed, .inl hin⟩
    · exact .inr ⟨hseed, .inr hin'⟩

theorem uses_of_related (h : code.Related code') :
    ∃ k role role', code.Uses role k ∧ code'.Uses role' k := by
  have hmeet : ∀ role role' : Role, role.In code → role'.In code' → role.stream = role'.stream →
      code'.parameters.seed = code.parameters.seed ^^^ (role.tweak ^^^ role'.tweak) →
      ∃ k role role', code.Uses role k ∧ code'.Uses role' k := by
    intro role role' hin hin' hstream hseed
    obtain ⟨k, hk, hk'⟩ :=
      (exists_uses_both_iff code code' role role').mpr ⟨hin, hin', hstream, hseed⟩
    exact ⟨k, role, role', hk, hk'⟩
  rcases h with ⟨hseed, hsecond⟩ | ⟨hseed, hstrata⟩
  · rw [← BitVec.xor_allOnes] at hseed
    rcases hsecond with hsecond | hsecond
    · exact hmeet .secondSweep .firstSweep hsecond trivial rfl hseed
    · exact hmeet .firstSweep .secondSweep trivial hsecond rfl hseed
  · rcases hstrata with hstrata | hstrata
    · exact hmeet .strata .whole hstrata trivial rfl hseed
    · exact hmeet .whole .strata trivial hstrata rfl hseed

end TwoCodes

/-- An encoding draws from the keystreams of its roles and from no others. The roles of a code never
share a keystream. Codes with different seeds do exactly if one seed is the complement of the other
and there is a second sweep, or one seed is the other with the tweak of the strata added and there
are strata. -/
theorem keystreams_separate (code code' : Code) :
    (∃ R, code.readers = .ok R ∧ code.DrawsFrom R ∧
      ∀ k, k ∈ R.sources ↔ ∃ role, code.Uses role k) ∧
    (∃ k, code.Uses .firstSweep k) ∧
    ((∃ k, code.Uses .secondSweep k) ↔ code.parameters.secondSweep = true) ∧
    (∃ k, code.Uses .whole k) ∧
    ((∃ k, code.Uses .strata k) ↔ 0 < code.expansion.strata) ∧
    (∀ role role' k, code.Uses role k → code.Uses role' k → role = role') ∧
    (code.parameters.seed ≠ code'.parameters.seed →
      ((∃ k role role', code.Uses role k ∧ code'.Uses role' k) ↔
        (code'.parameters.seed = ~~~code.parameters.seed ∧
          (code.parameters.secondSweep = true ∨ code'.parameters.secondSweep = true)) ∨
        (code'.parameters.seed = code.parameters.seed ^^^ stratifiedTweak ∧
          (0 < code.expansion.strata ∨ 0 < code'.expansion.strata)))) := by
  refine ⟨?_, (exists_uses_iff code _).mpr trivial, exists_uses_iff code _,
    (exists_uses_iff code _).mpr trivial, exists_uses_iff code _, ?_, ?_⟩
  · obtain ⟨R, hR, hdraws, hsweeps, -⟩ := code.readers_ok
    refine ⟨R, hR, hdraws, ?_⟩
    intro k
    rw [Readers.mem_sources_iff (hsweeps ▸ Convolution.length_windows_le _ _)]
    simp [Uses, hR]
  · intro role role' k h h'
    exact code.role_unique h h'
  · intro hne
    constructor
    · rintro ⟨k, role, role', h, h'⟩
      exact related_of_uses hne h h'
    · exact uses_of_related

/-- The seed of one code is the complement of the other's, and only one of them sweeps twice. -/
theorem keystreams_separate_at_complement :
    let other : Code := ⟨⟨3, 7, 2, 9, false, true, false, ~~~Parameters.defaultSeed⟩, rfl, by decide⟩
    twoOfFive.parameters.seed ≠ other.parameters.seed ∧
      ∃ k role role', twoOfFive.Uses role k ∧ other.Uses role' k := by
  intro other
  obtain ⟨-, -, -, -, -, -, hshared⟩ := keystreams_separate twoOfFive other
  have hne : twoOfFive.parameters.seed ≠ other.parameters.seed := by decide
  exact ⟨hne, (hshared hne).mpr (.inl ⟨rfl, .inl rfl⟩)⟩

end Code
end ExpandConvolute
