import ArcDischarge.Io.Model

/-!
# What a step on a `ScheduledIo` can do

The step function inverted once: one constructor for each branch of `poll_timeout` and `wake`, of
`Readiness::poll`, and of `poll_readiness`, `ready_event` and `clear_readiness`, with its condition
and the state it leads to.
-/

namespace ArcDischarge.Io

inductive Move (interest : ℕ → Interest) (m : Shared) :
    Agent → Pc → Label → Shared → Pc → Prop where
  | turn : Move interest m .driver .idle (.turn none)
      { m with tick := m.tick + 1#8, turn := m.turn + 1 } .idle
  | turnEvent {event : Event} : Move interest m .driver .idle (.turn (some event))
      { m with tick := m.tick + 1#8, turn := m.turn + 1 } (.setLoad (.fromMio event))
  | setLoad {ready : Ready} : Move interest m .driver (.setLoad ready) .step m
      (.setExchange ready m.word)
  | set {ready : Ready} {next : Word}
      (h : pass (.set m.tick) (· ||| ready) m.word = some (some next)) :
      Move interest m .driver (.setExchange ready m.word) .step
        { m with word := next, log := m.log ++ [.set m.turn ready] } (.wakeLock m.log.length ready)
  | setRetry {ready : Ready} {current : Word} (h : m.word ≠ current) :
      Move interest m .driver (.setExchange ready current) .step m (.setExchange ready m.word)
  | wakeLock {event : ℕ} {ready : Ready} (h : m.lock = none) :
      Move interest m .driver (.wakeLock event ready) .step
        { m with lock := some .driver, wakers := [] } (.takeSlots event ready)
  | takeSlots {event : ℕ} {ready : Ready} : Move interest m .driver (.takeSlots event ready) .step
      { m with wakers := m.takenWakers ready
               slot := fun d ↦ if d.wokenBy ready then none else m.slot d
               slotsDone := event + 1 } (.scan event ready)
  | scanFull {event : ℕ} {ready : Ready} (h : m.wakers.length = capacity) :
      Move interest m .driver (.scan event ready) .step { m with lock := none } (.drain event ready)
  | scanEnd {event : ℕ} {ready : Ready} (h : m.list = []) :
      Move interest m .driver (.scan event ready) .step
        { m with lock := none, listDone := event + 1 } (.finish event)
  | scanRemove {event k : ℕ} {ready : Ready} {rest : List ℕ} {waker : Waker}
      (hlist : m.list = k :: rest) (hsat : ready.satisfies (interest k) = true)
      (hnode : m.node k = .linked waker) (hroom : m.wakers.length ≠ capacity) :
      Move interest m .driver (.scan event ready) .step
        { m with list := rest, node := Function.update m.node k .removed
                 wakers := m.wakers ++ [waker] } (.scan event ready)
  | scanStay {event k : ℕ} {ready : Ready} {rest : List ℕ} (hlist : m.list = k :: rest)
      (hsat : ready.satisfies (interest k) = false) :
      Move interest m .driver (.scan event ready) .step m (.scan event ready)
  | drainWake {event : ℕ} {ready : Ready} {waker : Waker} {rest : List Waker}
      (h : m.wakers = waker :: rest) :
      Move interest m .driver (.drain event ready) .step (m.wakeOne waker rest) (.drain event ready)
  | drainLock {event : ℕ} {ready : Ready} (h : m.wakers = []) (hlock : m.lock = none) :
      Move interest m .driver (.drain event ready) .step { m with lock := some .driver }
        (.scan event ready)
  | finishWake {event : ℕ} {waker : Waker} {rest : List Waker} (h : m.wakers = waker :: rest) :
      Move interest m .driver (.finish event) .step (m.wakeOne waker rest) (.finish event)
  | wakeReturn {event : ℕ} (h : m.wakers = []) :
      Move interest m .driver (.finish event) .step { m with returned := event + 1 } .idle
  | pollInit {k : ℕ} {waker : Waker} :
      Move interest m (.future k) .init (.poll waker) m (.initLoad waker)
  | pollWaiting {k : ℕ} {waker : Waker} :
      Move interest m (.future k) .waiting (.poll waker) m (.waitLock waker)
  | pollDone {k : ℕ} {waker : Waker} : Move interest m (.future k) .done (.poll waker) m .doneLoad
  | drop {k : ℕ} {p : Pc} (h : p = .init ∨ p = .waiting ∨ p = .done) (hnew : m.node k = .new) :
      Move interest m (.future k) p .drop m .dropped
  | abort {k : ℕ} {p : Pc} (h : p = .init ∨ p = .waiting ∨ p = .done) (hnode : m.node k ≠ .new) :
      Move interest m (.future k) p .drop m .aborted
  | initReady {k : ℕ} {waker : Waker} :
      Move interest m (.future k) (.initLoad waker) .step
        (m.returnReady k (m.capture (m.word.readiness.intersection (interest k)))) .done
  | initLoad {k : ℕ} {waker : Waker} :
      Move interest m (.future k) (.initLoad waker) .step m (.initLock waker)
  | initLock {k : ℕ} {waker : Waker} (h : m.lock = none) :
      Move interest m (.future k) (.initLock waker) .step { m with lock := some (.future k) }
        (.recheck waker)
  | recheckReady {k : ℕ} {waker : Waker} :
      Move interest m (.future k) (.recheck waker) .step m
        (.unlockReady (m.capture (m.recheckReady (interest k))))
  | recheck {k : ℕ} {waker : Waker} (hshut : m.word.isShutdown = false)
      (h : (m.word.readiness.intersection (interest k)).isEmpty = true) :
      Move interest m (.future k) (.recheck waker) .step m (.register waker m.log.length)
  | register {k recheck : ℕ} {waker : Waker} (h : m.node k = .new) :
      Move interest m (.future k) (.register waker recheck) .step
        { m with list := k :: m.list, node := Function.update m.node k (.linked waker)
                 stored := Function.update m.stored k ⟨waker, m.woken.length, recheck⟩ }
        (.registered waker)
  | registered {k : ℕ} {waker : Waker} :
      Move interest m (.future k) (.registered waker) .step { m with lock := none }
        (.waitLock waker)
  | waitLock {k : ℕ} {waker : Waker} (h : m.lock = none) :
      Move interest m (.future k) (.waitLock waker) .step { m with lock := some (.future k) }
        (.inspect waker)
  | inspectLinked {k : ℕ} {old waker : Waker} (h : m.node k = .linked old) :
      Move interest m (.future k) (.inspect waker) .step
        { m with node := Function.update m.node k (.linked waker)
                 stored := Function.update m.stored k
                   ⟨waker, m.woken.length, (m.stored k).recheck⟩ } .unlockPending
  | inspectRemoved {k : ℕ} {waker : Waker} (h : m.node k = .removed) :
      Move interest m (.future k) (.inspect waker) .step
        { m with node := Function.update m.node k .new } .unlockDone
  | inspectNew {k : ℕ} {waker : Waker} (h : m.node k = .new) :
      Move interest m (.future k) (.inspect waker) .step m .unlockDone
  | unlockPending {k : ℕ} : Move interest m (.future k) .unlockPending .step
      { m with lock := none
               results := Function.update m.results k (m.results k ++ [.pending]) } .waiting
  | unlockReady {k : ℕ} {captured : Captured} :
      Move interest m (.future k) (.unlockReady captured) .step
        ({ m with lock := none }.returnReady k captured) .done
  | unlockDone {k : ℕ} :
      Move interest m (.future k) .unlockDone .step { m with lock := none } .doneLoad
  | doneLoad {k : ℕ} : Move interest m (.future k) .doneLoad .step
      (m.returnReady k (m.capture (m.word.readiness.intersection (interest k)))) .done
  | pollReadiness {k : ℕ} {d : Direction} {waker : Waker} :
      Move interest m (.thread k) .idle (.pollReadiness d waker) m (.callLoad d waker)
  | callLoad {k : ℕ} {d : Direction} {waker : Waker} :
      Move interest m (.thread k) (.callLoad d waker) .step m (.callLock d waker)
  | callReady {k : ℕ} {d : Direction} {waker : Waker} :
      Move interest m (.thread k) (.callLoad d waker) .step
        { m with held := m.held ++ [m.capture (d.mask &&& m.word.readiness)] } .idle
  | callLock {k : ℕ} {d : Direction} {waker : Waker} (h : m.lock = none) :
      Move interest m (.thread k) (.callLock d waker) .step { m with lock := some (.thread k) }
        (.store d waker)
  | store {k : ℕ} {d : Direction} {waker : Waker} :
      Move interest m (.thread k) (.store d waker) .step
        { m with slot := Function.update m.slot d (some waker)
                 caller := Function.update m.caller d
                   (some ⟨k, ⟨waker, m.woken.length, 0⟩, false⟩) } (.callRecheck d)
  | recheckShutdown {k : ℕ} {d : Direction} (h : m.word.isShutdown = true) :
      Move interest m (.thread k) (.callRecheck d) .step m
        (.callUnlock (some (m.capture d.mask)))
  | recheckPending {k : ℕ} {d : Direction} (hshut : m.word.isShutdown = false)
      (h : (d.mask &&& m.word.readiness).isEmpty = true) :
      Move interest m (.thread k) (.callRecheck d) .step
        { m with caller := Function.update m.caller d ((m.caller d).map fun c ↦
          { c with stored := { c.stored with recheck := m.log.length }, pending := true }) }
        (.callUnlock none)
  | callRecheckReady {k : ℕ} {d : Direction} :
      Move interest m (.thread k) (.callRecheck d) .step m
        (.callUnlock (some (m.capture (d.mask &&& m.word.readiness))))
  | callUnlock {k : ℕ} {captured : Option Captured} :
      Move interest m (.thread k) (.callUnlock captured) .step
        { m with lock := none, held := m.held ++ captured.toList } .idle
  | readyEvent {k : ℕ} {i : Interest} :
      Move interest m (.thread k) .idle (.readyEvent i) m (.eventLoad i)
  | eventLoad {k : ℕ} {i : Interest} : Move interest m (.thread k) (.eventLoad i) .step
      { m with held := m.held ++ [m.capture (mask i &&& m.word.readiness)] } .idle
  | clearReadiness {k n : ℕ} {captured : Captured} (h : m.held[n]? = some captured) :
      Move interest m (.thread k) .idle (.clearReadiness n) { m with held := m.held.eraseIdx n }
        (.clearLoad captured)
  | clearLoad {k : ℕ} {captured : Captured} :
      Move interest m (.thread k) (.clearLoad captured) .step m (.clearExchange captured m.word)
  | clearOld {k : ℕ} {captured : Captured} {current : Word} :
      Move interest m (.thread k) (.clearExchange captured current) .step m .idle
  | clear {k : ℕ} {captured : Captured} {next : Word}
      (h : pass (.clear captured.event.tick) (· - captured.event.maskNoClosed) m.word =
        some (some next)) :
      Move interest m (.thread k) (.clearExchange captured m.word) .step
        { m with word := next, log := m.log ++ [.clear captured.event.maskNoClosed] } .idle
  | clearRetry {k : ℕ} {captured : Captured} {current : Word} (h : m.word ≠ current) :
      Move interest m (.thread k) (.clearExchange captured current) .step m
        (.clearExchange captured m.word)

variable {interest : ℕ → Interest} {m m' : Shared} {p p' : Pc} {a : Label}

theorem move_of_driverStep (h : driverStep interest m p a = some (m', p')) :
    Move interest m .driver p a m' p' := by
  unfold driverStep at h
  split at h
  · split at h <;> cases h
    · exact .turn
    · exact .turnEvent
  · cases h; exact .setLoad
  · split at h
    · split at h <;> cases h
      · rename_i heq hword
        subst hword
        exact .set heq
      · exact .setRetry ‹_›
    · cases h
  · split at h <;> cases h
    exact .wakeLock ‹_›
  · cases h; exact .takeSlots
  · split at h
    · cases h; exact .scanFull ‹_›
    · split at h
      · cases h; exact .scanEnd ‹_›
      · split at h
        · split at h <;> cases h
          exact .scanRemove ‹_› ‹_› ‹_› ‹_›
        · cases h; exact .scanStay ‹_› (Bool.eq_false_iff.mpr ‹_›)
  · split at h
    · cases h; exact .drainWake ‹_›
    · split at h <;> cases h
      exact .drainLock ‹_› ‹_›
  · split at h <;> cases h
    · exact .finishWake ‹_›
    · exact .wakeReturn ‹_›
  · cases h

theorem dropNode_eq_dropped {k : ℕ} (h : m.node k = .new) : dropNode m k = .dropped := by
  simp [dropNode, h]

theorem dropNode_eq_aborted {k : ℕ} (h : m.node k ≠ .new) : dropNode m k = .aborted := by
  cases hnode : m.node k with
  | new => exact absurd hnode h
  | linked | removed => simp [dropNode, hnode]

theorem move_of_drop {k : ℕ} (h : p = .init ∨ p = .waiting ∨ p = .done) :
    Move interest m (.future k) p .drop m (dropNode m k) := by
  by_cases hnew : m.node k = .new
  · rw [dropNode_eq_dropped hnew]
    exact .drop h hnew
  · rw [dropNode_eq_aborted hnew]
    exact .abort h hnew

theorem move_of_futureStep {k : ℕ} (h : futureStep interest k m p a = some (m', p')) :
    Move interest m (.future k) p a m' p' := by
  unfold futureStep at h
  split at h
  · cases h; exact .pollInit
  · cases h; exact .pollWaiting
  · cases h; exact .pollDone
  · cases h; exact move_of_drop (by simp)
  · cases h; exact move_of_drop (by simp)
  · cases h; exact move_of_drop (by simp)
  · dsimp only at h
    split at h <;> cases h
    · exact .initReady
    · exact .initLoad
  · split at h <;> cases h
    exact .initLock ‹_›
  · dsimp only at h
    split at h <;> cases h
    · exact .recheckReady
    · rename_i hnot
      rw [Bool.not_eq_true, Bool.or_eq_false_iff, Bool.not_eq_false'] at hnot
      obtain ⟨hempty, hshut⟩ := hnot
      exact .recheck hshut (by simpa [Shared.recheckReady, hshut] using hempty)
  · split at h <;> cases h
    exact .register ‹_›
  · cases h; exact .registered
  · split at h <;> cases h
    exact .waitLock ‹_›
  · split at h <;> cases h
    · exact .inspectLinked ‹_›
    · exact .inspectRemoved ‹_›
    · exact .inspectNew ‹_›
  · cases h; exact .unlockPending
  · cases h; exact .unlockReady
  · cases h; exact .unlockDone
  · cases h; exact .doneLoad
  · cases h

/-- Storing a waker that is there already changes nothing. -/
theorem slot_store (slot : Direction → Option Waker) (d : Direction) (waker : Waker) :
    (if slot d = some waker then slot else Function.update slot d (some waker)) =
      Function.update slot d (some waker) := by
  split
  · rename_i heq
    rw [← heq, Function.update_eq_self]
  · rfl

theorem move_of_threadStep {k : ℕ} (h : threadStep k m p a = some (m', p')) :
    Move interest m (.thread k) p a m' p' := by
  unfold threadStep at h
  split at h
  · cases h; exact .pollReadiness
  · dsimp only at h
    split at h <;> cases h
    · exact .callLoad
    · exact .callReady
  · split at h <;> cases h
    exact .callLock ‹_›
  · dsimp only at h
    rw [slot_store] at h
    cases h
    exact .store
  · dsimp only at h
    split at h
    · cases h; exact .recheckShutdown ‹_›
    · split at h <;> cases h
      · exact .recheckPending (Bool.eq_false_iff.mpr ‹_›) ‹_›
      · exact .callRecheckReady
  · cases h; exact .callUnlock
  · cases h; exact .readyEvent
  · cases h; exact .eventLoad
  · split at h <;> cases h
    exact .clearReadiness ‹_›
  · cases h; exact .clearLoad
  · dsimp only at h
    split at h
    · cases h
    · cases h; exact .clearOld
    · split at h <;> cases h
      · rename_i heq hword
        subst hword
        exact .clear heq
      · exact .clearRetry ‹_›
  · cases h

theorem move_of_step {i : Agent} (h : step interest i m p a = some (m', p')) :
    Move interest m i p a m' p' := by
  cases i with
  | driver => exact move_of_driverStep h
  | future k => exact move_of_futureStep h
  | thread k => exact move_of_threadStep h

/-- Only a drop makes a future go away. -/
theorem Move.eq_drop {i : Agent} (h : Move interest m i p a m' p') (hp' : p' = .dropped) :
    a = .drop := by
  subst hp'
  cases h
  rfl

end ArcDischarge.Io
