import ArcDischarge.Runtime.Model

/-!
# What a step of the runtime can do

The step function of the model is inverted once, here: `CallMove` lists the transitions of a
`schedule_global` call and `WorkerMove` those of the worker loop, each with the condition under
which it is taken and the state it leads to. Every invariant of the runtime is then a case analysis
on these.
-/

namespace ArcDischarge.Runtime

/-- The transitions of a `schedule_global` call. -/
inductive CallMove (θ : Thread) (m : Shared) : Call → Shared → Option Call → Prop where
  | push (t : ℕ) : CallMove θ m (.push t) { m with globalQueue :=
      if t ∈ m.globalQueue then m.globalQueue else m.globalQueue ++ [t] } (some .tryLock)
  | skip {θ' : Thread} (h : m.parkedLock = some θ') : CallMove θ m .tryLock m none
  | lock (h : m.parkedLock = none) :
      CallMove θ m .tryLock { m with parkedLock := some θ } (some .callPop)
  | callPop {q : SyncSlotMap.State} (h : SyncSlotMap.step m.parkedWorkers .pop = some q) :
      CallMove θ m .callPop { m with parkedWorkers := q } (some .pop)
  | pop {q : SyncSlotMap.State} (h : SyncSlotMap.step m.parkedWorkers .popStep = some q) :
      CallMove θ m .pop { m with parkedWorkers := q } (some (afterPop m.n q))
  | lockParker {i : ℕ} (h : m.parkerLock i = none) : CallMove θ m (.lockParker i)
      { m with parkerLock := Function.update m.parkerLock i (some θ) } (some (.inspect i))
  | inspectParked {i : ℕ} (h : m.parker i = some .parked) : CallMove θ m (.inspect i)
      { m with parker := Function.update m.parker i none } (some (.notify i))
  | inspectNone {i : ℕ} (h : m.parker i = none) :
      CallMove θ m (.inspect i) m (some (.release i true))
  | notify {i : ℕ} : CallMove θ m (.notify i)
      { m with unparker := Function.update m.unparker i (m.unparker i).notifyOne }
      (some (.release i false))
  | release {i : ℕ} {again : Bool} : CallMove θ m (.release i again)
      { m with parkerLock := Function.update m.parkerLock i none }
      (some (if again then .callPop else .unlock))
  | wakeIo : CallMove θ m .wakeIo { m with wakePending := true } (some .unlock)
  | unlock : CallMove θ m .unlock { m with parkedLock := none } none

/-- The transitions of worker `i` outside any `schedule_global` call. -/
inductive WorkerMove (i : ℕ) (m : Shared) (ℓ : Local) : Base → Label → Shared → Local → Prop where
  | top : WorkerMove i m ℓ .top .step m (top ℓ)
  | getGlobal : WorkerMove i m ℓ .getGlobal .step
      { m with globalQueue := m.globalQueue.drop 4 } (getGlobal m ℓ).2
  | runningDone {t : ℕ} : WorkerMove i m ℓ (.running t) .step m { ℓ with base := .top }
  | runningLocal {t t' : ℕ} :
      WorkerMove i m ℓ (.running t) (.scheduleLocal t') m (scheduleLocal m ℓ t')
  | runningGlobal {t t' : ℕ} :
      WorkerMove i m ℓ (.running t) (.scheduleGlobal t') m { ℓ with call := some (.push t') }
  | lockIo (h : m.ioDriver = none) : WorkerMove i m ℓ .tryLockIo .step
      { m with ioDriver := some (.worker i) } { ℓ with base := .polling }
  | noIo {θ : Thread} (h : m.ioDriver = some θ) :
      WorkerMove i m ℓ .tryLockIo .step m { ℓ with base := .lockParker }
  | pollReturn {delivered : Bool} : WorkerMove i m ℓ .polling (.pollReturn delivered)
      { m with wakePending := m.wakePending && !delivered } { ℓ with base := .events }
  | eventsDone : WorkerMove i m ℓ .events .step m { ℓ with base := .unlockIo }
  | eventsLocal {t : ℕ} : WorkerMove i m ℓ .events (.scheduleLocal t) m (scheduleLocal m ℓ t)
  | eventsGlobal {t : ℕ} :
      WorkerMove i m ℓ .events (.scheduleGlobal t) m { ℓ with call := some (.push t) }
  | unlockIo : WorkerMove i m ℓ .unlockIo .step { m with ioDriver := none } { ℓ with base := .top }
  | lockParker (h : m.parkerLock i = none) : WorkerMove i m ℓ .lockParker .step
      { m with parkerLock := Function.update m.parkerLock i (some (.worker i)) }
      { ℓ with base := .checkParker }
  | checkParked {w : WorkerThreadWaker} (h : m.parker i = some w) :
      WorkerMove i m ℓ .checkParker .step m { ℓ with base := .park }
  | push {q : SyncSlotMap.State} (hp : m.parker i = none)
      (h : SyncSlotMap.step m.parkedWorkers (.push i) = some q) :
      WorkerMove i m ℓ .checkParker .step { m with parkedWorkers := q } { ℓ with base := .pushing }
  | pushStep {q : SyncSlotMap.State}
      (h : SyncSlotMap.step m.parkedWorkers (.pushStep i) = some q) :
      WorkerMove i m ℓ .pushing .step { m with parkedWorkers := q }
        { ℓ with base := if q.pushing i = none then .park else .pushing }
  | park : WorkerMove i m ℓ .park .step
      { m with parker := Function.update m.parker i (some .parked) } { ℓ with base := .wait }
  | wait : WorkerMove i m ℓ .wait .step
      { m with parkerLock := Function.update m.parkerLock i none
               unparker := Function.update m.unparker i .waiting } { ℓ with base := .waiting }
  | notified (h : m.unparker i = .notified) : WorkerMove i m ℓ .waiting .step
      { m with unparker := Function.update m.unparker i .idle } { ℓ with base := .relock }
  | spurious : WorkerMove i m ℓ .waiting .spurious
      { m with unparker := Function.update m.unparker i .idle } { ℓ with base := .relock }
  | relock (h : m.parkerLock i = none) : WorkerMove i m ℓ .relock .step
      { m with parkerLock := Function.update m.parkerLock i (some (.worker i)) }
      { ℓ with base := .unpark }
  | unpark : WorkerMove i m ℓ .unpark .step
      { m with parker := Function.update m.parker i none } { ℓ with base := .release }
  | release : WorkerMove i m ℓ .release .step
      { m with parkerLock := Function.update m.parkerLock i none } { ℓ with base := .top }

variable {θ : Thread} {i : ℕ} {m m' : Shared} {ℓ ℓ' : Local} {a : Label}

theorem callMove_of_callStep {c : Call} {c' : Option Call}
    (h : callStep θ m c = some (m', c')) : CallMove θ m c m' c' := by
  cases c <;> simp only [callStep, Option.map_eq_some_iff, Option.some.injEq, Prod.mk.injEq,
    reduceCtorEq] at h
  case push t => obtain ⟨rfl, rfl⟩ := h; exact .push t
  case tryLock =>
    split at h <;> rename_i hlock <;> obtain ⟨rfl, rfl⟩ := by simpa using h
    · exact .skip hlock
    · exact .lock hlock
  case callPop => obtain ⟨q, hq, rfl, rfl⟩ := h; exact .callPop hq
  case pop => obtain ⟨q, hq, rfl, rfl⟩ := h; exact .pop hq
  case lockParker i =>
    split at h <;> rename_i hlock
    · simp at h
    · obtain ⟨rfl, rfl⟩ := by simpa using h
      exact .lockParker hlock
  case inspect i =>
    split at h <;> rename_i hparker <;> obtain ⟨rfl, rfl⟩ := by simpa using h
    · exact .inspectParked hparker
    · exact .inspectNone hparker
  case notify i => obtain ⟨rfl, rfl⟩ := h; exact .notify
  case release i again => obtain ⟨rfl, rfl⟩ := h; exact .release
  case wakeIo => obtain ⟨rfl, rfl⟩ := h; exact .wakeIo
  case unlock => obtain ⟨rfl, rfl⟩ := h; exact .unlock

theorem workerMove_of_workerStep {b : Base} (h : workerStep i m ℓ b a = some (m', ℓ')) :
    WorkerMove i m ℓ b a m' ℓ' := by
  cases b <;> cases a <;>
    simp only [workerStep, Option.map_eq_some_iff, Option.some.injEq, Prod.mk.injEq,
      reduceCtorEq] at h
  case top.step => obtain ⟨rfl, rfl⟩ := h; exact .top
  case getGlobal.step =>
    obtain ⟨rfl, rfl⟩ : (getGlobal m ℓ).1 = m' ∧ (getGlobal m ℓ).2 = ℓ' := by simp [h]
    exact .getGlobal
  case running.step => obtain ⟨rfl, rfl⟩ := h; exact .runningDone
  case running.scheduleLocal => obtain ⟨rfl, rfl⟩ := h; exact .runningLocal
  case running.scheduleGlobal => obtain ⟨rfl, rfl⟩ := h; exact .runningGlobal
  case tryLockIo.step =>
    split at h <;> rename_i hio <;> obtain ⟨rfl, rfl⟩ := by simpa using h
    · exact .lockIo hio
    · exact .noIo hio
  case polling.pollReturn => obtain ⟨rfl, rfl⟩ := h; exact .pollReturn
  case events.step => obtain ⟨rfl, rfl⟩ := h; exact .eventsDone
  case events.scheduleLocal => obtain ⟨rfl, rfl⟩ := h; exact .eventsLocal
  case events.scheduleGlobal => obtain ⟨rfl, rfl⟩ := h; exact .eventsGlobal
  case unlockIo.step => obtain ⟨rfl, rfl⟩ := h; exact .unlockIo
  case lockParker.step =>
    split at h <;> rename_i hlock
    · simp at h
    · obtain ⟨rfl, rfl⟩ := by simpa using h
      exact .lockParker hlock
  case checkParker.step =>
    split at h <;> rename_i hparker
    · obtain ⟨rfl, rfl⟩ := by simpa using h
      exact .checkParked hparker
    · simp only [Option.map_eq_some_iff, Prod.mk.injEq] at h
      obtain ⟨q, hq, rfl, rfl⟩ := h
      exact .push hparker hq
  case pushing.step => obtain ⟨q, hq, rfl, rfl⟩ := h; exact .pushStep hq
  case park.step => obtain ⟨rfl, rfl⟩ := h; exact .park
  case wait.step => obtain ⟨rfl, rfl⟩ := h; exact .wait
  case waiting.step =>
    split at h <;> rename_i hnotified
    · obtain ⟨rfl, rfl⟩ := by simpa using h
      exact .notified hnotified
    · simp at h
  case waiting.spurious => obtain ⟨rfl, rfl⟩ := h; exact .spurious
  case relock.step =>
    split at h <;> rename_i hlock
    · simp at h
    · obtain ⟨rfl, rfl⟩ := by simpa using h
      exact .relock hlock
  case unpark.step => obtain ⟨rfl, rfl⟩ := h; exact .unpark
  case release.step => obtain ⟨rfl, rfl⟩ := h; exact .release

/-- Only a worker moves so. -/
theorem WorkerMove.base_ne {b : Base} (h : WorkerMove i m ℓ b a m' ℓ') : b ≠ .outside := by
  cases h <;> simp

/-- The transitions of a thread. -/
inductive Move : Thread → Shared → Local → Label → Shared → Local → Prop where
  /-- A step inside a `schedule_global` call. -/
  | call {θ : Thread} {m m' : Shared} {ℓ : Local} {c : Call} {c' : Option Call}
      (hc : ℓ.call = some c) (h : CallMove θ m c m' c') : Move θ m ℓ .step m' { ℓ with call := c' }
  /-- A thread that is not a worker calls `schedule_global`. -/
  | enter {k t : ℕ} {m : Shared} {ℓ : Local} (hc : ℓ.call = none) :
      Move (.other k) m ℓ (.scheduleGlobal t) m { ℓ with call := some (.push t) }
  /-- A step of the worker loop. -/
  | worker {i : ℕ} {m m' : Shared} {ℓ ℓ' : Local} {a : Label} (hc : ℓ.call = none)
      (h : WorkerMove i m ℓ ℓ.base a m' ℓ') : Move (.worker i) m ℓ a m' ℓ'

theorem move_of_step (h : step θ m ℓ a = some (m', ℓ')) : Move θ m ℓ a m' ℓ' := by
  unfold step at h
  split at h
  case h_1 c _ hc =>
    simp only [Option.map_eq_some_iff, Prod.mk.injEq] at h
    obtain ⟨⟨m₁, c₁⟩, hr, rfl, rfl⟩ := h
    exact .call hc (callMove_of_callStep hr)
  case h_2 => simp at h
  case h_3 k t hc =>
    obtain ⟨rfl, rfl⟩ := by simpa using h
    exact .enter hc
  case h_4 => simp at h
  case h_5 i hc => exact .worker hc (workerMove_of_workerStep h)

end ArcDischarge.Runtime
