import ArcDischarge.Retry.Coherence

/-!
# What a call is charged for

A call tries its operation once; each further try is paid for by an event that the driver has
applied meanwhile. A call that has captured an event knows the readiness of its direction as of
then. If no event comes before its clear, the tick is still the same and the clear goes through,
and it leaves nothing: what it does not remove is a closed bit, which would still be set, and then
the operation would not have reported `WouldBlock`. So the next poll finds nothing, unless there has
been an event since.

`behind` is 1 if there has been one. The tries of a call, with those that are certain to come, and
its steps, with those that it has left, are bounded by the events so far, with 1 and 8 for
`behind`. An exchange of somebody else may cost the call a step, since its own fails then.
-/

namespace ArcDischarge.Retry

open Io (Agent Captured Coherent Direction Entry Interest Ready Shared)

variable {ε R : Type*} {interest : ℕ → Interest} {wouldBlock : ε → Bool} {gone : ε}
  {m m' : Shared} {i : Agent} {p p' : Pc ε R} {a : Label ε R} {k n : ℕ} {call : Call ε R}
  {phase : Phase R} {captured : Captured}

/-! ## Counting events -/

theorem eventsSince_length (log : List Entry) : eventsSince log.length log = 0 := by
  simp [eventsSince, Io.turns]

theorem eventsSince_set {log : List Entry} {turn : ℕ} {ready : Ready} (h : n ≤ log.length) :
    eventsSince n (log ++ [.set turn ready]) = eventsSince n log + 1 := by
  rw [eventsSince, List.drop_append_of_le_length h, Io.turns_append_set, List.length_append]
  rfl

theorem eventsSince_clear {log : List Entry} {removed : Ready} (h : n ≤ log.length) :
    eventsSince n (log ++ [.clear removed]) = eventsSince n log := by
  rw [eventsSince, List.drop_append_of_le_length h, Io.turns_append_clear]
  rfl

/-- Without an event since its capture, an event still has the tick of the word. -/
theorem tick_eq (h : Coherent m) (hof : captured.Of m.log)
    (hsince : eventsSince captured.since m.log = 0) : m.word.tick = captured.event.tick := by
  have hturns : Io.turns m.log = Io.turns (m.log.take captured.since) := by
    have hsplit := Io.turns_append (m.log.take captured.since) (m.log.drop captured.since)
    rw [List.take_append_drop, List.length_eq_zero_iff.mp hsince, List.append_nil] at hsplit
    exact hsplit
  rw [h.word.tick, hof.tick, Io.lastTurn, Io.lastTurn, hturns]

/-! ## What an exchange does to the readiness -/

theorem Exchange.length_le (h : Exchange m m') : m.log.length ≤ m'.log.length := by
  cases h with
  | keep _ hlog => rw [hlog]
  | set _ _ hlog | clear _ hlog => rw [hlog, List.length_append]; exact Nat.le_add_right _ _

theorem Exchange.eventsSince_le (h : Exchange m m') (hn : n ≤ m.log.length) :
    eventsSince n m.log ≤ eventsSince n m'.log := by
  cases h with
  | keep _ hlog => rw [hlog]
  | set _ _ hlog =>
    rw [hlog, eventsSince_set hn]
    exact Nat.le_succ _
  | clear _ hlog => rw [hlog, eventsSince_clear hn]

theorem readiness_of_set {turn : ℕ} {ready : Ready} (h : Coherent m) (h' : Coherent m')
    (hlog : m'.log = m.log ++ [.set turn ready]) :
    m'.word.readiness = m.word.readiness ||| ready := by
  rw [h'.word.readiness, hlog, Io.readiness_append_singleton, ← h.word.readiness]
  rfl

theorem readiness_of_clear {removed : Ready} (h : Coherent m) (h' : Coherent m')
    (hlog : m'.log = m.log ++ [.clear removed]) :
    m'.word.readiness = m.word.readiness - removed := by
  rw [h'.word.readiness, hlog, Io.readiness_append_singleton, ← h.word.readiness]
  rfl

/-- A closed bit stays. -/
theorem Exchange.mem_of_closed (h : Exchange m m') (hm : Coherent m) (hm' : Coherent m')
    {d : Direction} (hd : closedBit d ∈ m.word.readiness) : closedBit d ∈ m'.word.readiness := by
  cases h with
  | keep hword => rwa [hword]
  | set _ _ hlog =>
    rw [readiness_of_set hm hm' hlog, Ready.mem_or]
    exact Or.inl hd
  | clear _ hlog hclosed =>
    rw [readiness_of_clear hm hm' hlog, Ready.mem_sub]
    exact ⟨hd, hclosed d⟩

/-- Only an event sets a bit. -/
theorem Exchange.mem_of_mem (h : Exchange m m') (hm : Coherent m) (hm' : Coherent m')
    (hn : n ≤ m.log.length) (hsince : eventsSince n m'.log = 0) {b : ℕ}
    (hb : b ∈ m'.word.readiness) : b ∈ m.word.readiness := by
  cases h with
  | keep hword => rwa [hword] at hb
  | set _ _ hlog =>
    rw [hlog, eventsSince_set hn] at hsince
    cases hsince
  | clear _ hlog =>
    rw [readiness_of_clear hm hm' hlog, Ready.mem_sub] at hb
    exact hb.1

/-! ## What a call knows from its event -/

/-- The event that a call has captured, up to the clear after which it polls again. -/
def Phase.captured? : Phase R → Option Captured
  | .polling (.callUnlock captured) => captured
  | .trying captured => some captured
  | .clearing (.clearLoad captured) none | .clearing (.clearExchange captured _) none =>
    some captured
  | _ => none

def Phase.isClearing : Phase R → Bool
  | .clearing _ _ => true
  | _ => false

theorem Phase.inner_captured? (h : phase.captured? = some captured) :
    (Pc.call call phase).inner.captured? = some captured := by
  unfold Phase.captured? at h
  split at h
  · exact h
  · exact h
  · exact h
  · exact h
  · cases h

structure Seen (m : Shared) (call : Call ε R) (phase : Phase R) : Prop where
  /-- Without an event since, nothing else has become ready. -/
  ready : ∀ captured, phase.captured? = some captured → eventsSince captured.since m.log = 0 →
    ∀ b ∈ call.ready m, b ∈ captured.event.ready
  closed : ∀ captured, phase.captured? = some captured →
    closedBit call.loop.direction ∈ captured.event.ready →
      closedBit call.loop.direction ∈ m.word.readiness
  /-- The operation has reported `WouldBlock`. -/
  unclosed : ∀ captured, phase.isClearing = true → phase.captured? = some captured →
    closedBit call.loop.direction ∉ captured.event.ready
  tick : ∀ captured current, phase = .clearing (.clearExchange captured current) none →
    eventsSince captured.since m.log = 0 → current.tick = captured.event.tick

def Pc.Seen (m : Shared) : Pc ε R → Prop
  | .call c phase => Retry.Seen m c phase
  | _ => True

theorem Seen.of_none (h : phase.captured? = none) : Seen m call phase where
  ready captured hcaptured := by
    rw [h] at hcaptured
    cases hcaptured
  closed captured hcaptured := by
    rw [h] at hcaptured
    cases hcaptured
  unclosed captured _ hcaptured := by
    rw [h] at hcaptured
    cases hcaptured
  tick captured current hphase := by
    rw [hphase] at h
    cases h

/-- An event just captured. -/
theorem Seen.of_capture (h : phase.captured? = some (m.capture (call.ready m)))
    (hphase : phase.isClearing = false) : Seen m call phase where
  ready captured hcaptured _ b hb := by
    rw [h] at hcaptured
    cases hcaptured
    exact hb
  closed captured hcaptured hmem := by
    rw [h] at hcaptured
    cases hcaptured
    exact (Ready.mem_and.mp hmem).2
  unclosed captured hclearing := by
    rw [hphase] at hclearing
    cases hclearing
  tick captured current heq := by
    rw [heq] at hphase
    cases hphase

theorem Seen.after (h : Seen m call phase) (did : List (Did ε R)) :
    Seen m (call.after did) phase := ⟨h.ready, h.closed, h.unclosed, h.tick⟩

/-- The clear of an event, from a load of the word on. -/
theorem Seen.of_load {q : Io.Pc} (h : Seen m call (.clearing q none)) (hm : Coherent m)
    (hcaptured : (Phase.clearing q (none : Option R)).captured? = some captured)
    (hof : captured.Of m.log) :
    Seen m call (.clearing (.clearExchange captured m.word) none) where
  ready x hx := by
    cases hx
    exact h.ready captured hcaptured
  closed x hx := by
    cases hx
    exact h.closed captured hcaptured
  unclosed x _ hx := by
    cases hx
    exact h.unclosed captured rfl hcaptured
  tick x current heq hsince := by
    cases heq
    exact tick_eq hm hof hsince

theorem Pc.seen_cleared (result : Option R) : (cleared call result).Seen m := by
  cases result with
  | none => exact .of_none rfl
  | some => trivial

theorem CallMove.seen (hmove : CallMove wouldBlock k m call phase a m' p') (hm : Coherent m)
    (hok : Io.Ok (.thread k) m (Pc.call call phase).inner) (h : Seen m call phase)
    (hfinal : ∀ captured e, phase = .trying captured → a = .result (.error e) →
      wouldBlock e = true → closedBit call.loop.direction ∉ m.word.readiness) : p'.Seen m' := by
  cases hmove with
  | load | lock | store | recheck | clearsAfter => exact Seen.of_none rfl
  | loadReady | recheckReady => exact Seen.of_capture rfl rfl
  | unlock | tried => trivial
  | unlockReady => exact ⟨h.ready, h.closed, fun _ hclearing ↦ (by cases hclearing),
      fun _ _ hphase ↦ (by cases hphase)⟩
  | @wouldBlock captured e hblock =>
    refine ⟨h.ready, h.closed, fun x _ hx ↦ ?_, fun _ _ hphase ↦ (by cases hphase)⟩
    cases hx
    exact fun hmem ↦ hfinal captured e rfl rfl hblock (h.closed captured rfl hmem)
  | @clearLoad captured result | @clearRetry captured current result =>
    cases result with
    | none => exact (h.of_load hm rfl (hok.captured captured rfl)).after []
    | some ret => exact Seen.of_none rfl
  | clearOld | clear => exact Pc.seen_cleared _

theorem Seen.other (h : Seen m call phase) (hex : Exchange m m') (hm : Coherent m)
    (hm' : Coherent m')
    (hle : ∀ captured, phase.captured? = some captured → captured.since ≤ m.log.length) :
    Seen m' call phase where
  ready captured hcaptured hsince b hb := by
    have hle := hle captured hcaptured
    have hb' : b ∈ call.ready m :=
      Ready.mem_and.mpr ⟨(Ready.mem_and.mp hb).1,
        hex.mem_of_mem hm hm' hle hsince (Ready.mem_and.mp hb).2⟩
    have := hex.eventsSince_le hle
    exact h.ready captured hcaptured (by omega) b hb'
  closed captured hcaptured hmem := hex.mem_of_closed hm hm' (h.closed captured hcaptured hmem)
  unclosed := h.unclosed
  tick captured current hphase hsince := by
    have := hex.eventsSince_le (hle captured (by rw [hphase]; rfl))
    exact h.tick captured current hphase (by omega)

/-- The mask of a direction has one bit beside the closed one. -/
theorem mem_maskNoClosed {event : Io.ReadyEvent} {d : Direction} {b : ℕ} (h : b ∈ event.ready)
    (hmask : b ∈ d.mask) (hb : b ≠ closedBit d) : b ∈ event.maskNoClosed := by
  rw [Io.ReadyEvent.maskNoClosed, Ready.mem_sub, Ready.mem_sub, Ready.mem_READ_CLOSED,
    Ready.mem_WRITE_CLOSED]
  refine ⟨⟨h, ?_⟩, ?_⟩
  · rintro rfl
    cases d with
    | read => exact hb rfl
    | write => simp [Direction.mask] at hmask
  · rintro rfl
    cases d with
    | read => simp [Direction.mask] at hmask
    | write => exact hb rfl

/-- A clear without an event since the capture leaves nothing ready. -/
theorem Seen.ready_of_clear {current : Io.Word}
    (h : Seen m call (.clearing (.clearExchange captured current) none)) (hm : Coherent m)
    (hm' : Coherent m') (hlog : m'.log = m.log ++ [.clear captured.event.maskNoClosed])
    (hsince : eventsSince captured.since m.log = 0) : (call.ready m').isEmpty = true := by
  rw [Ready.isEmpty_iff]
  intro b hb
  obtain ⟨hmask, hready⟩ := Ready.mem_and.mp hb
  rw [readiness_of_clear hm hm' hlog, Ready.mem_sub] at hready
  have hmem := h.ready captured rfl hsince b (Ready.mem_and.mpr ⟨hmask, hready.1⟩)
  have hopen := h.unclosed captured rfl rfl
  exact hready.2 (mem_maskNoClosed hmem hmask fun heq ↦ hopen (heq ▸ hmem))

/-! ## The balance of a call -/

/-- Before the last look of a poll at the word. -/
def Phase.looks : Phase R → Bool
  | .polling (.callUnlock _) => false
  | .polling _ => true
  | _ => false

/-- Whether there is something for another try: an event since the capture, or readiness for the
next look at the word. -/
def behind (m : Shared) (call : Call ε R) (phase : Phase R) : ℕ :=
  match phase.captured? with
  | some captured => min 1 (eventsSince captured.since m.log)
  | none => if phase.looks && !(call.ready m).isEmpty then 1 else 0

/-- The next exchange of a call fails. -/
def stale (m : Shared) : Phase R → ℕ
  | .clearing (.clearExchange _ current) _ => if m.word = current then 0 else 1
  | _ => 0

/-- The tries that a call is about to make in any case. -/
def Phase.owed : Phase R → ℕ
  | .polling (.callUnlock (some _)) | .trying _ => 1
  | _ => 0

/-- The steps of a call up to its return if there is nothing for another try. -/
def Phase.left : Phase R → ℕ
  | .polling (.callUnlock (some _)) => 9
  | .trying _ => 8
  | .clearing (.clearLoad _) _ => 7
  | .clearing (.clearExchange _ _) _ => 6
  | .polling (.callLoad _ _) => 5
  | .polling (.callLock _ _) => 4
  | .polling (.store _ _) => 3
  | .polling (.callRecheck _) => 2
  | .polling (.callUnlock none) => 1
  | _ => 0

/-- The tries of a call that are still to come if nobody else moves, at most. -/
def tries (m : Shared) (call : Call ε R) (phase : Phase R) : ℕ :=
  phase.owed + behind m call phase

/-- The steps of a call up to its return if nobody else moves, at most. -/
def cost (m : Shared) (call : Call ε R) (phase : Phase R) : ℕ :=
  phase.left + 8 * behind m call phase + stale m phase

def Pc.tries (m : Shared) : Pc ε R → ℕ
  | .call c phase => Retry.tries m c phase
  | .io _ | .returned _ _ => 0

def Pc.cost (m : Shared) : Pc ε R → ℕ
  | .call c phase => Retry.cost m c phase
  | .io _ | .returned _ _ => 0

/-- The call that a thread is in or has returned from. -/
def Pc.call? : Pc ε R → Option (Call ε R)
  | .call c _ | .returned c _ => some c
  | .io _ => none

theorem behind_le_one : behind m call phase ≤ 1 := by
  unfold behind
  split
  · exact Nat.min_le_left _ _
  · split <;> omega

theorem behind_of_captured (h : phase.captured? = some captured) :
    behind m call phase = min 1 (eventsSince captured.since m.log) := by
  rw [behind, h]

theorem behind_of_isEmpty (h : phase.captured? = none) (hready : (call.ready m).isEmpty = true) :
    behind m call phase = 0 := by
  simp [behind, h, hready]

theorem behind_of_ready (h : phase.captured? = none) (hlooks : phase.looks = true)
    (hready : (call.ready m).isEmpty = false) : behind m call phase = 1 := by
  simp [behind, h, hlooks, hready]

theorem behind_of_not_looks (h : phase.captured? = none) (hlooks : phase.looks = false) :
    behind m call phase = 0 := by
  simp [behind, h, hlooks]

theorem stale_le_one : stale m phase ≤ 1 := by
  unfold stale
  split
  · split <;> omega
  · omega

/-- A step of a call spends what the call has left. -/
structure Spends (m m' : Shared) (call : Call ε R) (phase : Phase R) (did : List (Did ε R))
    (p' : Pc ε R) : Prop where
  after : p'.call? = some (call.after did)
  tries_le : (did.filterMap Did.result?).length + p'.tries m' ≤ tries m call phase
  cost_lt : p'.cost m' < cost m call phase

/-- A step to a phase with less to do, and no more to come after it. -/
theorem Spends.advance {phase' : Phase R} (did : List (Did ε R))
    (hbehind : behind m' (call.after did) phase' ≤ behind m call phase)
    (howed : (did.filterMap Did.result?).length + phase'.owed ≤ phase.owed)
    (hleft : phase'.left + stale m' phase' < phase.left + stale m phase) :
    Spends m m' call phase did (.call (call.after did) phase') where
  after := rfl
  tries_le := by
    rw [Pc.tries, tries, tries]
    omega
  cost_lt := by
    rw [Pc.cost, cost, cost]
    omega

theorem Spends.returns {ret : Return ε R} (did : List (Did ε R))
    (howed : (did.filterMap Did.result?).length ≤ phase.owed) (hleft : 0 < phase.left) :
    Spends m m' call phase did (.returned (call.after did) ret) where
  after := rfl
  tries_le := by
    rw [Pc.tries, tries]
    omega
  cost_lt := by
    rw [Pc.cost, cost]
    omega

/-- A look at the word that finds something to try. -/
theorem Spends.capture {phase' : Phase R} (hready : behind m call phase = 1)
    (hleft : phase'.left ≤ phase.left + 7) (howed : phase'.owed = 1)
    (hcaptured : phase'.captured? = some (m.capture (call.ready m)))
    (hstale : stale m phase' = 0) : Spends m m call phase [] (.call (call.after []) phase') := by
  have hsince : eventsSince (m.capture (call.ready m)).since m.log = 0 := eventsSince_length m.log
  have hbehind : behind m (call.after []) phase' = 0 := by
    rw [behind_of_captured hcaptured, hsince]
    rfl
  refine ⟨rfl, ?_, ?_⟩
  · rw [Pc.tries, tries, tries, howed, hbehind, hready]
    exact Nat.le_add_left _ _
  · rw [Pc.cost, cost, cost, hbehind, hready, hstale]
    omega

/-- `clear_readiness` returns. -/
theorem Spends.cleared {result : Option R} {current : Io.Word}
    (hready : result = none → (call.ready m').isEmpty = false →
      eventsSince captured.since m.log ≠ 0) :
    Spends m m' call (.clearing (.clearExchange captured current) result) [.cleared]
      (cleared (call.after [.cleared]) result) := by
  cases result with
  | some ret => exact .returns _ (Nat.zero_le _) (Nat.zero_lt_succ 5)
  | none =>
    refine .advance _ ?_ (Nat.le_refl 0) (Nat.lt_of_lt_of_le (Nat.lt_succ_self 5)
      (Nat.le_add_right 6 _))
    cases hempty : (call.ready m').isEmpty with
    | true =>
      refine Nat.le_trans (Nat.le_of_eq ?_) (Nat.zero_le _)
      exact behind_of_isEmpty rfl hempty
    | false =>
      refine Nat.le_trans behind_le_one (Nat.le_of_eq (Eq.symm ?_))
      exact (behind_of_captured rfl).trans
        (Nat.min_eq_left (Nat.pos_of_ne_zero (hready rfl hempty)))

theorem CallMove.spends (hmove : CallMove wouldBlock k m call phase a m' p') (hm : Coherent m)
    (hm' : Coherent m') (hseen : Seen m call phase) :
    ∃ did, Spends m m' call phase did p' := by
  cases hmove with
  | load | lock | store | unlockReady | wouldBlock =>
    exact ⟨_, .advance _ (Nat.le_refl _) (Nat.le_refl _) (Nat.lt_succ_self _)⟩
  | recheck | clearsAfter =>
    exact ⟨_, .advance _ (Nat.zero_le _) (Nat.le_refl _) (Nat.lt_succ_self _)⟩
  | loadReady hready | recheckReady hready =>
    exact ⟨_, .capture (behind_of_ready rfl rfl hready) (by simp [Phase.left]) rfl rfl rfl⟩
  | unlock => exact ⟨_, .returns _ (Nat.le_refl _) (Nat.zero_lt_succ 0)⟩
  | tried => exact ⟨_, .returns _ (Nat.le_refl _) (Nat.zero_lt_succ 7)⟩
  | @clearLoad _ result =>
    refine ⟨_, .advance _ ?_ (Nat.le_refl _) (by simp [Phase.left, stale])⟩
    cases result with
    | none => exact Nat.le_refl _
    | some => exact Nat.zero_le _
  | @clearRetry _ _ result hword =>
    refine ⟨_, .advance _ ?_ (Nat.le_refl _) (by simp [Phase.left, stale, hword])⟩
    cases result with
    | none => exact Nat.le_refl _
    | some => exact Nat.zero_le _
  | @clearOld captured current result hold =>
    -- the clear gives up only where an event has moved the tick on
    refine ⟨_, .cleared fun hresult _ hsince ↦ hold ?_⟩
    subst hresult
    exact hseen.tick captured current rfl hsince
  | @clear captured next result hpass =>
    -- with no event since the capture, the clear leaves nothing of it
    refine ⟨_, .cleared fun hresult hready hsince ↦ ?_⟩
    subst hresult
    rw [hseen.ready_of_clear hm hm' rfl hsince] at hready
    cases hready

/-- A call that has `tries` tries and `cost` steps to come keeps to its bounds. -/
structure Balanced (m : Shared) (call : Call ε R) (tries cost : ℕ) : Prop where
  since : call.since ≤ m.log.length
  calls : call.results.length + tries ≤ 1 + eventsSince call.since m.log
  steps : call.steps + cost ≤
    13 + 8 * eventsSince call.since m.log + (m.log.length - call.since)

def Pc.Balanced (m : Shared) (p : Pc ε R) : Prop :=
  ∀ call, p.call? = some call → Retry.Balanced m call (p.tries m) (p.cost m)

theorem CallMove.eventsSince_eq (hmove : CallMove wouldBlock k m call phase a m' p')
    (hn : n ≤ m.log.length) : eventsSince n m'.log = eventsSince n m.log := by
  cases hmove with
  | clear => exact eventsSince_clear hn
  | _ => rfl

theorem CallMove.balanced (hmove : CallMove wouldBlock k m call phase a m' p') (hm : Coherent m)
    (hm' : Coherent m') (hseen : Seen m call phase) (h : (Pc.call call phase).Balanced m) :
    p'.Balanced m' := by
  obtain ⟨did, hcall, htries, hcost⟩ := hmove.spends hm hm' hseen
  obtain ⟨hsince, hcalls, hsteps⟩ := h call rfl
  have hlen : m.log.length ≤ m'.log.length :=
    hmove.exchange.length_le
  intro call' hcall'
  rw [hcall] at hcall'
  cases hcall'
  have hevents : eventsSince (call.after did).since m'.log = eventsSince call.since m.log :=
    hmove.eventsSince_eq hsince
  refine ⟨Nat.le_trans hsince hlen, ?_, ?_⟩
  · rw [hevents, Call.results, Call.after, List.filterMap_append, List.length_append]
    change call.results.length + _ + _ ≤ _
    change call.results.length + tries m call phase ≤ _ at hcalls
    omega
  · change call.steps + 1 + _ ≤ 13 + 8 * _ + (m'.log.length - call.since)
    change call.steps + cost m call phase ≤ _ at hsteps
    rw [hevents]
    omega

/-- A clear of somebody else makes nothing ready. -/
theorem behind_le_of_clear {removed : Ready} (hm : Coherent m) (hm' : Coherent m')
    (hlog : m'.log = m.log ++ [.clear removed])
    (hle : ∀ captured, phase.captured? = some captured → captured.since ≤ m.log.length) :
    behind m' call phase ≤ behind m call phase := by
  cases hcaptured : phase.captured? with
  | some captured =>
    rw [behind_of_captured hcaptured, behind_of_captured hcaptured, hlog,
      eventsSince_clear (hle captured hcaptured)]
  | none =>
    cases hready : (call.ready m).isEmpty with
    | true =>
      have hempty : (call.ready m').isEmpty = true := by
        rw [Ready.isEmpty_iff] at hready ⊢
        intro b hb
        obtain ⟨hmask, hmem⟩ := Ready.mem_and.mp hb
        rw [readiness_of_clear hm hm' hlog, Ready.mem_sub] at hmem
        exact hready b (Ready.mem_and.mpr ⟨hmask, hmem.1⟩)
      rw [behind_of_isEmpty hcaptured hempty]
      exact Nat.zero_le _
    | false =>
      cases hlooks : phase.looks with
      | true =>
        rw [behind_of_ready hcaptured hlooks hready]
        exact behind_le_one
      | false =>
        rw [behind_of_not_looks hcaptured hlooks]
        exact Nat.zero_le _

/-- An exchange of somebody else pays for what it costs the call. -/
theorem Balanced.other (hex : Exchange m m') (hm : Coherent m) (hm' : Coherent m')
    (hle : ∀ captured, phase.captured? = some captured → captured.since ≤ m.log.length)
    (h : Balanced m call (tries m call phase) (cost m call phase)) :
    Balanced m' call (tries m' call phase) (cost m' call phase) := by
  obtain ⟨hsince, hcalls, hsteps⟩ := h
  have hone : behind m' call phase ≤ 1 := behind_le_one
  have hstale : stale m' phase ≤ 1 := stale_le_one
  rw [tries] at hcalls
  rw [cost] at hsteps
  cases hex with
  | keep hword hlog =>
    have hready : call.ready m' = call.ready m := by rw [Call.ready, hword, Call.ready]
    have hbehind : behind m' call phase = behind m call phase := by
      rw [behind, behind, hlog, hready]
    have hsame : stale m' phase = stale m phase := by
      unfold stale
      rw [hword]
    refine ⟨?_, ?_, ?_⟩
    · rwa [hlog]
    · rwa [hlog, tries, hbehind]
    · rwa [hlog, cost, hbehind, hsame]
  | set turn ready hlog =>
    -- the event pays for one more try, with its eight steps
    refine ⟨?_, ?_, ?_⟩
    · rw [hlog, List.length_append]
      omega
    · rw [hlog, eventsSince_set hsince, tries]
      omega
    · rw [hlog, eventsSince_set hsince, cost, List.length_append, List.length_singleton]
      omega
  | clear removed hlog =>
    -- the entry pays for the one pass that a compare-and-swap may have to repeat
    have hbehind : behind m' call phase ≤ behind m call phase :=
      behind_le_of_clear hm hm' hlog hle
    refine ⟨?_, ?_, ?_⟩
    · rw [hlog, List.length_append]
      omega
    · rw [hlog, eventsSince_clear hsince, tries]
      omega
    · rw [hlog, eventsSince_clear hsince, cost, List.length_append, List.length_singleton]
      omega

end ArcDischarge.Retry
