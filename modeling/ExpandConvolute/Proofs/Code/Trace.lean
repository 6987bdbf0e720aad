import ExpandConvolute.Proofs.Code.Accepted

/-!
# ExpandConvolute.Proofs.Code.Trace

What the log of an encoding tells. The events of a run are fixed by the parameters and by the length
of the codeword: that an encoding began, and one event for every time that a sweep fills its buffer
anew. Neither the symbols of the codeword nor their alphabet have a part in them.

* `Emits e x events`: on the buffer `x` the edit `e` adds `events` to the log, whether it succeeds
  or is refused.
* `HasTrace op n events`: an operation on codewords of `n` symbols, in any alphabet, emits `events`
  and nothing on codewords of another length.
* `Oblivious op`: two runs on codewords of one length leave the same log. This is a property of pairs
  of runs, and follows from any trace in closed form (`HasTrace.oblivious`).
-/

namespace ExpandConvolute

variable {σ τ α β : Type}

/-- An event as it is written to the log. -/
def Event.record (event : Event) : Level × String × List (String × String) :=
  (event.level, event.message, event.fields)

namespace Edit

/-- The log that a run leaves. -/
def logAfter (e : Edit σ α) (s : Session σ) : List Event :=
  match e s with
  | .ok _ t => t.log
  | .error _ t => t.log

def Emits (e : Edit σ α) (x : Buffer σ) (events : List Event) : Prop :=
  ∀ log, e.logAfter ⟨x, log⟩ = log ++ events

theorem Yields.emits {e : Edit σ α} {x y : Buffer σ} {a : α} {events : List Event}
    (h : Yields e x a y events) : Emits e x events := by
  intro log
  simp only [logAfter, h log]

theorem Refuses.emits {e : Edit σ α} {x : Buffer σ} {r : Refusal} (h : Refuses e x r) :
    Emits e x [] := by
  intro log
  simp only [logAfter, h log, List.append_nil]

def HasTrace (op : ∀ {σ : Type}, Alphabet σ → Edit σ Unit) (n : Nat) (events : List Event) : Prop :=
  ∀ (σ : Type) (A : Alphabet σ) (x : Buffer σ), Emits (op A) x (if x.size = n then events else [])

def Oblivious (op : ∀ {σ : Type}, Alphabet σ → Edit σ Unit) : Prop :=
  ∀ (σ τ : Type) (A : Alphabet σ) (B : Alphabet τ) (x : Buffer σ) (y : Buffer τ) (log : List Event),
    x.size = y.size → (op A).logAfter ⟨x, log⟩ = (op B).logAfter ⟨y, log⟩

namespace HasTrace

variable {op : ∀ {σ : Type}, Alphabet σ → Edit σ Unit} {n : Nat} {events : List Event}

theorem of_length
    (hyes : ∀ (σ : Type) (A : Alphabet σ) (x : Buffer σ), x.size = n →
      ∃ y, Yields (op A) x () y events)
    (hno : ∀ (σ : Type) (A : Alphabet σ) (x : Buffer σ), n ≠ x.size → ∃ r, Refuses (op A) x r) :
    HasTrace op n events := by
  intro σ A x
  by_cases hx : x.size = n
  · obtain ⟨y, h⟩ := hyes σ A x hx
    rw [if_pos hx]
    exact h.emits
  · obtain ⟨r, h⟩ := hno σ A x (Ne.symm hx)
    rw [if_neg hx]
    exact h.emits

theorem oblivious (h : HasTrace op n events) : Oblivious op := by
  intro σ τ A B x y log hxy
  rw [h σ A x log, h τ B y log, hxy]

end HasTrace
end Edit

namespace Code

open Edit (Emits HasTrace Oblivious)

section Operations

variable (code : Code) (hroom : code.HasRoom)

include hroom

theorem encode_hasTrace :
    HasTrace code.encode code.codeSize (.encodeStarted code.codeSize :: code.refills) :=
  .of_length (fun _ A _ hx => ⟨_, code.encode_yields A hx hroom⟩)
    fun _ A _ hx => ⟨_, code.encode_refuses A hx⟩

theorem encode_within_hasTrace :
    HasTrace code.encodeWithin code.codeSize (.encodeStarted code.codeSize :: code.refills) :=
  .of_length (fun _ A _ hx => ⟨_, code.encode_within_yields A hx hroom⟩)
    fun _ A _ hx => ⟨_, code.encode_within_refuses A hx⟩

theorem convolve_hasTrace : HasTrace code.convolve code.codeSize code.refills :=
  .of_length (fun _ A _ hx => ⟨_, code.convolve_yields A hx hroom⟩)
    fun _ A _ hx => ⟨_, code.convolve_refuses A hx⟩

end Operations

/-- The buffer of a sweep holds the windows of `4097 - span` positions, and the first filling is not
reported. -/
theorem refills_eq (code : Code) :
    code.refills =
      List.replicate ((if code.parameters.secondSweep then 2 else 1) *
        ((code.paritySize - 1) / (4097 - (code.parameters.width.toNat + 7) / 8))) .windowsRefilled := by
  rw [refills, Convolution.length_seeds]
  rfl

/-- An encoding reports that it began, with the number of symbols, and then each refill of its
sweeps; a convolution reports the refills alone, and a refused operation nothing. The log tells
codewords of one length apart by nothing else. -/
theorem encoder_trace (code : Code) (hroom : code.HasRoom) :
    let n := code.codeSize
    let span := (code.parameters.width.toNat + 7) / 8
    let sweeps := if code.parameters.secondSweep then 2 else 1
    let count := sweeps * ((code.paritySize - 1) / (4097 - span))
    let refills := List.replicate count Event.windowsRefilled
    HasTrace code.encode n (.encodeStarted n :: refills) ∧
    HasTrace code.encodeWithin n (.encodeStarted n :: refills) ∧
    HasTrace code.convolve n refills ∧
    (Event.encodeStarted n :: refills).map Event.record =
      (.trace, "dual encode", [("n", Nat.repr n)]) ::
        List.replicate count (.trace, "refilling accumulator coefficient buffer", []) ∧
    Oblivious code.encode ∧ Oblivious code.encodeWithin ∧ Oblivious code.convolve := by
  intro n span sweeps count refills
  have hrefills : code.refills = refills := code.refills_eq
  have hencode := code.encode_hasTrace hroom
  have hwithin := code.encode_within_hasTrace hroom
  have hconvolve := code.convolve_hasTrace hroom
  rw [hrefills] at hencode hwithin hconvolve
  refine ⟨hencode, hwithin, hconvolve, ?_, hencode.oblivious, hwithin.oblivious,
    hconvolve.oblivious⟩
  rw [List.map_cons, List.map_replicate]
  rfl

/-- One position more than the windows of a page, swept twice: each sweep fills its buffer anew. -/
theorem encoder_trace_at_second_page :
    ∃ code : Code, code.HasRoom ∧ code.paritySize = 4095 ∧ code.parameters.width = 24 ∧
      ∀ x : Buffer Bool, x.size = 4096 → ∀ y : Buffer (BitVec 8), y.size = 4096 →
        Emits (code.encode .bits) x [.encodeStarted 4096, .windowsRefilled, .windowsRefilled] ∧
        (code.encode .bits).logAfter ⟨x, []⟩ = (code.encode (.integers 8)).logAfter ⟨y, []⟩ := by
  let code : Code := ⟨⟨1, 4096, 7, 24, true, true, true, Parameters.defaultSeed⟩, rfl, by decide⟩
  have hroom : code.HasRoom := hasRoom_of_lt (by decide)
  obtain ⟨htrace, -, -, -, hoblivious, -⟩ := encoder_trace code hroom
  refine ⟨code, hroom, rfl, rfl, ?_⟩
  intro x hx y hy
  have hx' : x.size = code.codeSize := hx
  have hcount : (if code.parameters.secondSweep then 2 else 1) *
      ((code.paritySize - 1) / (4097 - (code.parameters.width.toNat + 7) / 8)) = 2 := by decide
  have hemits := htrace Bool .bits x
  rw [if_pos hx', hcount] at hemits
  exact ⟨hemits, hoblivious Bool (BitVec 8) .bits (.integers 8) x y [] (hx.trans hy.symm)⟩

end Code
end ExpandConvolute
