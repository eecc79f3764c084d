import ArcDischarge.Io.Coherence

/-!
# Stale clears

`clear_readiness` takes the tick of its event for proof that no newer event has been applied: the
exchange goes through only if the word still has that tick. The tick is one byte of the driver's
turn number, so the check tells two events apart unless their turns are a multiple of 256 apart. As
long as no clear meets such a pair, no clear removes what an event has set since its own was
captured; where one does, it may.
-/

namespace ArcDischarge.Io

/-- The event of the `clear_readiness` whose exchange goes through in this step. -/
def clearing (c : State) : Agent × Label → Option Captured
  | (.thread k, .step) =>
    match c.pc (.thread k) with
    | .clearExchange captured current =>
      if c.shared.word = current ∧ (Tick.clear captured.event.tick).isOld current = false then
        some captured
      else none
    | _ => none
  | _ => none

/-- The last event is a positive multiple of 256 turns after the last one before the capture. -/
def Lapped (log : List Entry) (captured : Captured) : Prop :=
  lastTurn (log.take captured.since) < lastTurn log ∧
    256 ∣ lastTurn log - lastTurn (log.take captured.since)

instance (log : List Entry) (captured : Captured) : Decidable (Lapped log captured) :=
  inferInstanceAs (Decidable (_ ∧ _))

/-- No clear goes through with an event that the driver's tick has lapped. -/
def NotLapped (c : State) (a : Agent × Label) : Prop :=
  ∀ captured ∈ clearing c a, ¬Lapped c.shared.log captured

instance (c : State) (a : Agent × Label) : Decidable (NotLapped c a) :=
  inferInstanceAs (Decidable (∀ captured ∈ clearing c a, ¬Lapped c.shared.log captured))

/-- If the step is the exchange of a clear and goes through, what events have set since the capture
is still set right after it. -/
def KeepsNewer (interest : ℕ → Interest) (c : State) (a : Agent × Label) : Prop :=
  ∀ captured d, clearing c a = some captured → (machine interest).step c a = some d →
    ∀ turn ready b, .set turn ready ∈ c.shared.log.drop captured.since → b ∈ ready →
      b ∈ d.shared.word.readiness

variable {interest : ℕ → Interest} {c d : State} {a : Agent × Label} {captured : Captured}

theorem clearing_eq_some (h : clearing c a = some captured) :
    ∃ k, a = (.thread k, .step) ∧ c.pc (.thread k) = .clearExchange captured c.shared.word ∧
      (Tick.clear captured.event.tick).isOld c.shared.word = false := by
  unfold clearing at h
  split at h
  · split at h
    · split at h <;> cases h
      rename_i k captured current hpc hcond
      exact ⟨k, rfl, hcond.1 ▸ hpc, hcond.1 ▸ hcond.2⟩
    · cases h
  · cases h

/-- With an event since the capture, the last turn is a later one. -/
theorem Coherent.lastTurn_lt {m : Shared} {n turn : ℕ} {ready : Ready} (h : Coherent m)
    (hmem : .set turn ready ∈ m.log.drop n) : lastTurn (m.log.take n) < lastTurn m.log := by
  have hsplit : turns m.log = turns (m.log.take n) ++ turns (m.log.drop n) := by
    rw [← turns_append, List.take_append_drop]
  have hturn : turn ∈ turns (m.log.drop n) := List.mem_filterMap.mpr ⟨_, hmem, rfl⟩
  obtain ⟨last, hlast⟩ : ∃ last, (turns (m.log.drop n)).getLast? = some last :=
    Option.isSome_iff_exists.mp (by
      rw [List.getLast?_isSome]
      exact List.ne_nil_of_mem hturn)
  have hmemLast := List.mem_of_getLast? hlast
  have heq : lastTurn m.log = last := by
    rw [lastTurn, hsplit, List.getLast?_append, hlast]
    rfl
  rw [heq, lastTurn]
  cases hbefore : (turns (m.log.take n)).getLast? with
  | none => exact h.pos last (hsplit ▸ List.mem_append_right _ hmemLast)
  | some before =>
    have hsorted := h.sorted
    rw [hsplit, List.pairwise_append] at hsorted
    exact hsorted.2.2 before (List.mem_of_getLast? hbefore) last hmemLast

/-- A clear that goes through with an event since its capture has been lapped. -/
theorem lapped_of_clears {turn : ℕ} {ready : Ready} (hc : System.Holds Coherent Ok c)
    (hclear : clearing c a = some captured)
    (hmem : .set turn ready ∈ c.shared.log.drop captured.since) : Lapped c.shared.log captured := by
  obtain ⟨k, -, hpc, hold⟩ := clearing_eq_some hclear
  have hof : captured.Of c.shared.log := (hc.agent hpc).captured captured rfl
  have hlt := hc.1.lastTurn_lt hmem
  have htick : BitVec.ofNat 8 (lastTurn (c.shared.log.take captured.since)) =
      BitVec.ofNat 8 (lastTurn c.shared.log) := by
    rw [← hof.tick, ← hc.1.word.tick]
    exact (bne_eq_false_iff_eq.mp hold).symm
  have hmod := congrArg BitVec.toNat htick
  rw [BitVec.toNat_ofNat, BitVec.toNat_ofNat] at hmod
  exact ⟨hlt, Nat.dvd_of_mod_eq_zero (by omega)⟩

/-- A lapped clear erases what newer events have set among the bits it removes. -/
theorem not_mem_of_clears {b : ℕ} (hclear : clearing c a = some captured)
    (hstep : (machine interest).step c a = some d) (hb : b ∈ captured.event.maskNoClosed) :
    b ∉ d.shared.word.readiness := by
  obtain ⟨k, rfl, hpc, hold⟩ := clearing_eq_some hclear
  obtain ⟨next, hpass, hready, -⟩ := exists_pass _ (· - captured.event.maskNoClosed) _ hold
  obtain ⟨m, p, hs, rfl⟩ := System.machine_step_eq_some.mp hstep
  have hm : m.word = next := by
    simp only [system, step, hpc, threadStep, hpass, if_true, Option.some.injEq,
      Prod.mk.injEq] at hs
    rw [← hs.1]
  change b ∉ m.word.readiness
  rw [hm, hready]
  simp [hb]

/-- **A stale clear never erases a newer readiness event**, in runs none of whose clears has been
lapped by the tick. -/
theorem keepsNewer_of_reachableUnder (interest : ℕ → Interest) (c : State) (a : Agent × Label)
    (h : (machine interest).ReachableUnder NotLapped c) (hG : NotLapped c a) :
    KeepsNewer interest c a := by
  intro captured d hclear _ turn ready b hmem _
  have hlapped := lapped_of_clears (coherent_of_reachableUnder h) hclear hmem
  exact absurd hlapped (hG captured hclear)

/-! ## Runs with two events -/

/-- Two events, 256 turns apart if `idle` is 255, with an event captured after each; then the first
one captured is cleared by thread 0, up to the exchange. -/
def twoEvents (idle : ℕ) : List (Agent × Label) :=
  eventTurn readable 0 0 ++ captureRun 0 .READABLE ++ List.replicate idle (.driver, .turn none) ++
    eventTurn readable 0 0 ++ captureRun 1 .READABLE ++ clearRun 0 0

def lapped : State :=
  ((machine fun _ ↦ .READABLE).exec (.new 0#64 (fun _ ↦ none) 0) (twoEvents 255)).get
    (by decide +kernel)

/-- The tick of turn 257 is that of turn 1: a clear with the event captured after turn 1 erases the
event of turn 257. -/
theorem not_keepsNewer_lapped : (machine fun _ ↦ .READABLE).Reachable lapped ∧
    ¬KeepsNewer (fun _ ↦ .READABLE) lapped (.thread 0, .step) := by
  refine ⟨.of_exec (reachableUnder_new _ _) (Option.some_get _).symm, fun h ↦ ?_⟩
  have hclear : clearing lapped (.thread 0, .step) = some ⟨⟨1#8, .READABLE, false⟩, 1⟩ := by
    decide +kernel
  obtain ⟨d, hd⟩ : ∃ d, (machine fun _ ↦ .READABLE).step lapped (.thread 0, .step) = some d :=
    Option.isSome_iff_exists.mp (by decide +kernel)
  have hmem : .set 257 .READABLE ∈ lapped.shared.log.drop 1 := by decide +kernel
  exact not_mem_of_clears hclear hd (b := 0) (by decide)
    (h _ d hclear hd 257 .READABLE 0 hmem (by decide))

/-- With two turns in between, thread 0 is turned away; thread 1 clears the event it captured after
both. -/
def unlapped : State :=
  ((machine fun _ ↦ .READABLE).exec (.new 0#64 (fun _ ↦ none) 0)
    (twoEvents 2 ++ (.thread 0, .step) :: clearRun 1 0)).get (by decide +kernel)

theorem keepsNewer_unlapped : (clearing unlapped (.thread 1, .step)).isSome ∧
    KeepsNewer (fun _ ↦ .READABLE) unlapped (.thread 1, .step) :=
  ⟨by decide +kernel, keepsNewer_of_reachableUnder _ _ _
    ((reachableUnder_new _ _).of_isSome_exec _ (by decide +kernel) _)
    (by decide +kernel)⟩

end ArcDischarge.Io
