import ArcDischarge.Io.Word
import ArcDischarge.Machine.System

/-!
# The word over all uses of its slot

The readiness word of a `ScheduledIo` from `Default` on (`src/io/mod.rs`): any number of threads run
the load and exchange loops of `set_readiness`, for events of the driver and for consumers' clears,
others load the word, and `Clear` moves the slot on to its next use. The slab runs `Clear` only when
nobody has a reference to the slot; here it may come at any moment, also in the middle of a loop,
and the word stays well formed all the same.

`log` and `clears` are history: the exchanges since the last `Clear`, and the number of `Clear`s.
-/

namespace ArcDischarge.Io.Generations

structure Shared where
  /-- The `AtomicUsize` `readiness`. -/
  word : Word
  log : List Entry
  clears : ℕ
  /-- What `poll_ready` and `readiness` have made of the events they got. -/
  results : List (Except Unit ReadyEvent)

/-- The next step of a thread. -/
inductive Pc where
  | idle
  /-- `set_readiness(Tick::Set(tick), |curr| curr | ready)`: the load. -/
  | setLoad (tick : BitVec 8) (ready : Ready)
  | setExchange (tick : BitVec 8) (ready : Ready) (current : Word)
  /-- `clear_readiness(event)`: the load. -/
  | clearLoad (event : ReadyEvent)
  | clearExchange (event : ReadyEvent) (current : Word)
  /-- An assertion of `pack` has failed. -/
  | panicked
  deriving DecidableEq

inductive Label where
  | step
  | set (tick : BitVec 8) (ready : Ready)
  | clear (event : ReadyEvent)
  /-- A load by `poll_readiness`, `ready_event` or `Readiness::poll`, with the readiness that it
  puts into its event. -/
  | read (ready : Ready)
  /-- `Clear::clear`. -/
  | reset
  deriving DecidableEq

/-- The end of a pass of `set_readiness` that has computed `next`: the exchange, or another pass. -/
def exchange (m : Shared) (entry : Entry) (current : Word) (again : Word → Pc) :
    Option (Option Word) → Shared × Pc
  | none => (m, .panicked)
  | some none => (m, .idle)
  | some (some next) =>
    if m.word = current then ({ m with word := next, log := m.log ++ [entry] }, .idle)
    else (m, again m.word)

/-- One step of a thread. The tick of an event is recorded as its turn. -/
def step (m : Shared) : Pc → Label → Option (Shared × Pc)
  | .idle, .set tick ready => some (m, .setLoad tick ready)
  | .setLoad tick ready, .step => some (m, .setExchange tick ready m.word)
  | .setExchange tick ready current, .step =>
    some (exchange m (.set tick.toNat ready) current (.setExchange tick ready)
      (pass (.set tick) (· ||| ready) current))
  | .idle, .clear event => some (m, .clearLoad event)
  | .clearLoad event, .step => some (m, .clearExchange event m.word)
  | .clearExchange event current, .step =>
    some (exchange m (.clear event.maskNoClosed) current (.clearExchange event)
      (pass (.clear event.tick) (· - event.maskNoClosed) current))
  | .idle, .read ready =>
    some ({ m with results := m.results ++
      [ReadyEvent.orGone () ⟨m.word.tick, ready, m.word.isShutdown⟩] }, .idle)
  | .idle, .reset =>
    match m.word.cleared with
    | none => some (m, .panicked)
    | some next => some ({ m with word := next, log := [], clears := m.clears + 1 }, .idle)
  | _, _ => none

abbrev State := Config ℕ Shared Pc

/-- `ScheduledIo::default`. -/
def State.new : State := ⟨⟨0#64, [], 0, []⟩, fun _ ↦ .idle⟩

def system : System ℕ Shared Pc Label where
  init c := c = State.new
  step _ := step

abbrev machine : Machine State (ℕ × Label) := system.machine

/-! ## The steps -/

variable {m m' : Shared} {p p' : Pc} {a : Label}

/-- What a step does to the word. -/
inductive Effect (m m' : Shared) (a : Label) : Prop where
  | keep (hword : m'.word = m.word) (hlog : m'.log = m.log) (hclears : m'.clears = m.clears)
      (ha : a ≠ .reset)
  | set (tick : BitVec 8) (ready : Ready)
      (h : pass (.set tick) (· ||| ready) m.word = some (some m'.word))
      (hlog : m'.log = m.log ++ [.set tick.toNat ready]) (hclears : m'.clears = m.clears)
      (ha : a ≠ .reset)
  | clear (event : ReadyEvent)
      (h : pass (.clear event.tick) (· - event.maskNoClosed) m.word = some (some m'.word))
      (hlog : m'.log = m.log ++ [.clear event.maskNoClosed]) (hclears : m'.clears = m.clears)
      (ha : a ≠ .reset)
  | reset (h : m.word.cleared = some m'.word) (hlog : m'.log = [])
      (hclears : m'.clears = m.clears + 1) (ha : a = .reset)

theorem exchange_cases {entry : Entry} {current : Word} {again : Word → Pc}
    {result : Option (Option Word)} (hresult : result ≠ none)
    (h : exchange m entry current again result = (m', p')) :
    (m' = m ∧ (p' = .idle ∨ p' = again m.word)) ∨
      ∃ next, result = some (some next) ∧ m.word = current ∧
        m' = { m with word := next, log := m.log ++ [entry] } ∧ p' = .idle := by
  obtain ⟨next, rfl⟩ := Option.ne_none_iff_exists'.mp hresult
  cases next with
  | none =>
    cases h
    exact .inl ⟨rfl, .inl rfl⟩
  | some next =>
    by_cases hword : m.word = current
    · rw [exchange, if_pos hword] at h
      cases h
      exact .inr ⟨next, rfl, hword, rfl, rfl⟩
    · rw [exchange, if_neg hword] at h
      cases h
      exact .inl ⟨rfl, .inr rfl⟩

/-- Every step has one of the four effects, and none panics. -/
theorem effect_of_step (h : step m p a = some (m', p')) : Effect m m' a ∧ p' ≠ .panicked := by
  unfold step at h
  split at h
  · cases h
    exact ⟨.keep rfl rfl rfl (by simp), by simp⟩
  · cases h
    exact ⟨.keep rfl rfl rfl (by simp), by simp⟩
  · rename_i tick ready current
    rcases exchange_cases (pass_ne_none _ _ _) (Option.some.inj h) with
      ⟨rfl, rfl | rfl⟩ | ⟨next, hpass, rfl, rfl, rfl⟩
    · exact ⟨.keep rfl rfl rfl (by simp), by simp⟩
    · exact ⟨.keep rfl rfl rfl (by simp), by simp⟩
    · exact ⟨.set tick ready hpass rfl rfl (by simp), by simp⟩
  · cases h
    exact ⟨.keep rfl rfl rfl (by simp), by simp⟩
  · cases h
    exact ⟨.keep rfl rfl rfl (by simp), by simp⟩
  · rename_i event current
    rcases exchange_cases (pass_ne_none _ _ _) (Option.some.inj h) with
      ⟨rfl, rfl | rfl⟩ | ⟨next, hpass, rfl, rfl, rfl⟩
    · exact ⟨.keep rfl rfl rfl (by simp), by simp⟩
    · exact ⟨.keep rfl rfl rfl (by simp), by simp⟩
    · exact ⟨.clear event hpass rfl rfl (by simp), by simp⟩
  · cases h
    exact ⟨.keep rfl rfl rfl (by simp), by simp⟩
  · obtain ⟨next, hnext, -⟩ := m.word.exists_cleared
    rw [hnext] at h
    cases h
    exact ⟨.reset hnext rfl rfl rfl, by simp⟩
  · cases h

theorem results_of_step (h : step m p a = some (m', p')) (hshut : m.word.isShutdown = false) :
    m'.results = m.results ∨ ∃ event, m'.results = m.results ++ [.ok event] := by
  unfold step at h
  split at h
  case h_7 ready =>
    cases h
    exact .inr ⟨_, by rw [ReadyEvent.orGone, hshut, if_neg (by simp)]⟩
  case h_3 | h_6 =>
    left
    rcases exchange_cases (pass_ne_none _ _ _) (Option.some.inj h) with
      ⟨rfl, -⟩ | ⟨next, -, -, rfl, -⟩ <;> rfl
  case h_8 =>
    obtain ⟨next, hnext, -⟩ := m.word.exists_cleared
    rw [hnext] at h
    cases h
    exact .inl rfl
  all_goals
    cases h
    try exact .inl rfl

/-! ## Every run -/

/-- What the exchanges since the last `Clear` and the number of `Clear`s make of the word. -/
structure Inv (m : Shared) : Prop where
  holds : m.word.Holds m.log
  unused : ∀ i, 4 ≤ i → i < 16 → m.word.getLsbD i = false
  generation : (GENERATION.unpack m.word).toNat = m.clears % 128
  results : ∀ r ∈ m.results, ∃ event, r = .ok event

/-- An exchange keeps the generation. -/
theorem generation_of_pass {tick : Tick} {f : Ready → Ready} {w next : Word}
    (h : pass tick f w = some (some next)) : GENERATION.unpack next = GENERATION.unpack w := by
  obtain ⟨next', hpass, -, -, hgeneration, -⟩ := exists_pass tick f w (isOld_eq_false_of_pass h)
  rw [h, Option.some.injEq, Option.some.injEq] at hpass
  rw [hpass, hgeneration]

theorem Inv.unused_effect (hI : Inv m) (h : Effect m m' a) (i : ℕ) (hlo : 4 ≤ i) (hhi : i < 16) :
    m'.word.getLsbD i = false := by
  cases h with
  | keep hword =>
    rw [hword]
    exact hI.unused i hlo hhi
  | set tick ready h => exact getLsbD_of_pass h hlo hhi
  | clear event h => exact getLsbD_of_pass h hlo hhi
  | reset h =>
    rw [spans_GENERATION.getLsbD_pack (by omega) h, if_neg (by omega)]
    exact BitVec.getLsbD_zero

theorem Inv.effect (hI : Inv m) (h : Effect m m' a) :
    m'.word.Holds m'.log ∧ (GENERATION.unpack m'.word).toNat = m'.clears % 128 := by
  cases h with
  | keep hword hlog hclears =>
    rw [hword, hlog, hclears]
    exact ⟨hI.holds, hI.generation⟩
  | set tick ready h hlog hclears =>
    rw [hlog, hclears, generation_of_pass h]
    exact ⟨hI.holds.of_set (by rwa [BitVec.ofNat_toNat, BitVec.setWidth_eq]), hI.generation⟩
  | clear event h hlog hclears =>
    rw [hlog, hclears, generation_of_pass h]
    exact ⟨(hI.holds.of_clear h).2, hI.generation⟩
  | reset h hlog hclears =>
    obtain ⟨next, hnext, hgeneration⟩ := m.word.exists_cleared
    rw [h, Option.some.injEq] at hnext
    subst hnext
    rw [hlog, hclears, hgeneration, hI.generation]
    exact ⟨Word.holds_nil (.inr ⟨m.word, h⟩), by omega⟩

theorem inv_of_reachable {c : State} (h : machine.Reachable c) :
    Inv c.shared ∧ ∀ i, c.pc i ≠ .panicked := by
  refine System.holds_of_reachableUnder (I := fun _ _ p ↦ p ≠ Pc.panicked) h ?_ ?_ ?_
  · rintro _ rfl
    exact ⟨⟨Word.holds_nil (.inl rfl), by simp [State.new], by decide, by simp [State.new]⟩,
      fun i ↦ by simp [State.new]⟩
  · rintro c i a m p - ⟨hI, -⟩ - hs
    obtain ⟨heffect, hpanic⟩ := effect_of_step hs
    have hword := hI.effect heffect
    refine ⟨⟨hword.1, hI.unused_effect heffect, hword.2, fun r hr ↦ ?_⟩, hpanic⟩
    rcases results_of_step hs hI.holds.isShutdown with heq | ⟨event, heq⟩
    · exact hI.results r (heq ▸ hr)
    · rw [heq, List.mem_append, List.mem_singleton] at hr
      exact hr.elim (hI.results r) fun hr ↦ ⟨event, hr⟩
  · rintro c i a m p - ⟨-, hpc⟩ - - j -
    exact hpc j

/-- What a step other than `Clear` keeps. -/
structure Keeps (w w' : Word) : Prop where
  generation : GENERATION.unpack w' = GENERATION.unpack w
  closed : ∀ b ∈ Ready.READ_CLOSED ||| Ready.WRITE_CLOSED, b ∈ w.readiness → b ∈ w'.readiness

theorem Effect.keeps (h : Effect m m' a) (ha : a ≠ .reset) : Keeps m.word m'.word := by
  cases h with
  | keep hword =>
    rw [hword]
    exact ⟨rfl, fun _ _ hb ↦ hb⟩
  | set tick ready h =>
    refine ⟨generation_of_pass h, fun b _ hb ↦ ?_⟩
    obtain ⟨next, hpass, hready, -⟩ :=
      exists_pass (.set tick) (· ||| ready) m.word (isOld_eq_false_of_pass h)
    rw [h, Option.some.injEq, Option.some.injEq] at hpass
    rw [hpass, hready, Ready.mem_or]
    exact .inl hb
  | clear event h =>
    refine ⟨generation_of_pass h, fun b hclosed hb ↦ ?_⟩
    obtain ⟨next, hpass, hready, -⟩ :=
      exists_pass (.clear event.tick) (· - event.maskNoClosed) m.word (isOld_eq_false_of_pass h)
    rw [h, Option.some.injEq, Option.some.injEq] at hpass
    rw [hpass, hready, Ready.mem_sub, ReadyEvent.maskNoClosed, Ready.mem_sub, Ready.mem_sub]
    rw [Ready.mem_or] at hclosed
    exact ⟨hb, fun hmask ↦ hclosed.elim hmask.1.2 hmask.2⟩
  | reset _ _ _ hreset => exact absurd hreset ha

/-- The layout of the word. -/
structure WellFormed (c : State) : Prop where
  lt : c.shared.word.toNat < 2 ^ 31
  notShutdown : c.shared.word.isShutdown = false
  /-- Neither `poll_ready` nor `readiness` has returned the error `gone()`. -/
  notGone : ∀ r ∈ c.shared.results, r ≠ .error ()
  /-- Of the 16 bits for the readiness only the four defined ones are used. -/
  defined : ∀ b, (READINESS.unpack c.shared.word).getLsbD b = true → b < 4
  generation : (GENERATION.unpack c.shared.word).toNat = c.shared.clears % 128
  tick : TICK.unpack c.shared.word = (BitVec.ofNat 8 (lastTurn c.shared.log)).setWidth 64
  keeps : ∀ a d, machine.step c a = some d → a.2 ≠ .reset → Keeps c.shared.word d.shared.word
  /-- Every assertion of `pack` has held. -/
  asserts : ∀ i, c.pc i ≠ .panicked

theorem setWidth_tick (w : Word) : w.tick.setWidth 64 = TICK.unpack w := by
  refine BitVec.eq_of_getLsbD_eq fun i hi ↦ ?_
  rw [Word.tick, BitVec.getLsbD_setWidth, BitVec.getLsbD_setWidth, spans_TICK.getLsbD_unpack]
  by_cases h : i < 8
  · simp [h, hi]
  · simp [h]

/-- **The word is well formed** in every interleaving of events, clears, reads and `Clear`s. -/
theorem wellFormed_of_reachable (c : State) (h : machine.Reachable c) : WellFormed c := by
  obtain ⟨hI, hpc⟩ := inv_of_reachable h
  refine ⟨Nat.lt_pow_two_of_testBit _ hI.holds.high, hI.holds.isShutdown, fun r hr ↦ ?_,
    fun b hb ↦ ?_, hI.generation, ?_, fun a d hstep ha ↦ ?_, hpc⟩
  · obtain ⟨event, rfl⟩ := hI.results r hr
    simp
  · rw [spans_READINESS.getLsbD_unpack, Nat.zero_add, Bool.and_eq_true, decide_eq_true_iff] at hb
    by_contra hlo
    rw [hI.unused b (by omega) hb.1] at hb
    exact Bool.false_ne_true hb.2
  · rw [← setWidth_tick, hI.holds.tick]
  · obtain ⟨m, p, hs, rfl⟩ := System.machine_step_eq_some.mp hstep
    exact (effect_of_step hs).1.keeps ha

/-- A slot is closed for reading, the event is cleared, the slot is cleared for its next use, and an
event of that use arrives. -/
def reused : List (ℕ × Label) :=
  [(0, .set 7#8 (.READABLE ||| .READ_CLOSED)), (0, .step), (0, .step), (0, .read .READABLE),
    (1, .clear ⟨7#8, .READABLE ||| .READ_CLOSED, false⟩), (1, .step), (1, .step), (0, .reset),
    (0, .set 8#8 .WRITABLE), (0, .step), (0, .step)]

theorem wellFormed_reused : ∃ c, machine.Reachable c ∧ c.shared.clears = 1 ∧
    c.shared.log = [.set 8 .WRITABLE] ∧ c.shared.results.length = 1 ∧ WellFormed c := by
  have hr := Machine.ReachableUnder.of_isSome_exec (m := machine) (G := fun _ _ ↦ True)
    (.init rfl) reused (by decide +kernel) (by decide +kernel)
  exact ⟨_, hr, by decide +kernel, by decide +kernel, by decide +kernel,
    wellFormed_of_reachable _ hr⟩

end ArcDischarge.Io.Generations
