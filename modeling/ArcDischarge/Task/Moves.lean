import ArcDischarge.Task.Model

/-!
# What a step of a task can do

The step function inverted once: one constructor for each branch of `Task::run`,
`finish_cancellation`, `wake_by_ref`, `cancel` and `JoinHandle::poll`, with its condition and the
state it leads to.
-/

namespace ArcDischarge.Task

variable {V P W : Type*}

inductive Move (m : Shared V P W) :
    Agent → Pc V P W → Label V P W → Shared V P W → Pc V P W → Prop where
  | refill {w : ℕ} (h : m.linked = true) : Move m (.worker w) .idle .refill
      { m with linked := false, locals := Function.update m.locals w (m.locals w + 1) } .idle
  | dequeue {w : ℕ} (h : 0 < m.locals w) : Move m (.worker w) .idle .dequeue
      { m with locals := Function.update m.locals w (m.locals w - 1) } .run
  | win {w : ℕ} (h : m.state = .idle) : Move m (.worker w) .run .step
      { m with state := .running, owner := some w, sinceWin := false, wins := m.wins + 1 } .lock
  | notify {w : ℕ} (h : m.state = .running) : Move m (.worker w) .run .step
      { m with state := .notified } .idle
  | runCancelled {w : ℕ} (h : m.state = .cancelled) : Move m (.worker w) .run .step m .cancelLock
  | runNothing {w : ℕ} (h : m.state = .completed ∨ m.state = .notified) :
      Move m (.worker w) .run .step m .idle
  | lock {w : ℕ} (h : m.lock = none) : Move m (.worker w) .lock .step
      { m with lock := some (.worker w) } .enter
  | enter {w : ℕ} (h : m.inner = .future) : Move m (.worker w) .enter .step
      { m with trace := m.trace ++ [.polled w], notified := false } .polling
  | enterReturn {w : ℕ} {val : Output V P} (h : m.inner = .ret val) :
      Move m (.worker w) .enter .step m .unlockPending
  | pending {w : ℕ} {o : Outcome V P} (h : o.output = none) :
      Move m (.worker w) .polling (.outcome o)
        { m with trace := m.trace ++ [.polledTo o] } .unlockPending
  | finish {w : ℕ} {o : Outcome V P} {val : Output V P} (h : o.output = some val) :
      Move m (.worker w) .polling (.outcome o)
        { m with inner := .ret val, trace := m.trace ++ [.polledTo o] } .store
  | store {w : ℕ} : Move m (.worker w) .store .step
      { m with state := .completed, owner := none } .unlockReady
  | unlockReady {w : ℕ} : Move m (.worker w) .unlockReady .step { m with lock := none } .wakeReady
  | wakeReady {w : ℕ} : Move m (.worker w) .wakeReady .step m.wake .idle
  | unlockPending {w : ℕ} : Move m (.worker w) .unlockPending .step { m with lock := none } .close
  | close {w : ℕ} (h : m.state = .running) : Move m (.worker w) .close .step
      { m with state := .idle, owner := none } .idle
  | closeNotified {w : ℕ} (h : m.state = .notified) : Move m (.worker w) .close .step
      { m with state := .idle, owner := none } .requeue
  | closeCancelled {w : ℕ} (h : m.state = .cancelled) : Move m (.worker w) .close .step
      { m with owner := none } .cancelLock
  | closeNothing {w : ℕ} (h : m.state = .idle ∨ m.state = .completed) :
      Move m (.worker w) .close .step { m with owner := none } .idle
  | requeue {w : ℕ} : Move m (.worker w) .requeue .step m.scheduleGlobal .idle
  | cancelLock {w : ℕ} (h : m.lock = none) : Move m (.worker w) .cancelLock .step
      { m with lock := some (.worker w) } .cancelSet
  | abort {w : ℕ} (h : m.inner = .future) : Move m (.worker w) .cancelSet .step
      { m with inner := .ret (.error .aborted), trace := m.trace ++ [.aborted] } (.cancelStore true)
  | abortNothing {w : ℕ} {val : Output V P} (h : m.inner = .ret val) :
      Move m (.worker w) .cancelSet .step m (.cancelStore false)
  | cancelStore {w : ℕ} {published : Bool} : Move m (.worker w) (.cancelStore published) .step
      { m with state := .completed } (.cancelUnlock published)
  | cancelUnlock {w : ℕ} {published : Bool} : Move m (.worker w) (.cancelUnlock published) .step
      { m with lock := none } (.cancelWake published)
  | cancelWake {w : ℕ} {published : Bool} : Move m (.worker w) (.cancelWake published) .step
      m.wake .idle
  | wake {k : ℕ} : Move m (.waker k) .idle .wake
      { m with notified := true, sinceWin := true, wakes := m.wakes + 1 } .enqueue
  | enqueueLocal {k w : ℕ} : Move m (.waker k) .enqueue (.enqueueLocal w)
      { m with locals := Function.update m.locals w (m.locals w + 1) } .idle
  | enqueueGlobal {k : ℕ} : Move m (.waker k) .enqueue .enqueueGlobal m.scheduleGlobal .idle
  | cancel {k : ℕ} : Move m (.canceller k) .idle .cancel m .cancelUpdate
  | cancelNothing {k : ℕ} (h : m.state = .completed ∨ m.state = .cancelled) :
      Move m (.canceller k) .cancelUpdate .step m .idle
  | cancelUpdate {k : ℕ} (h : m.state ≠ .completed ∧ m.state ≠ .cancelled) :
      Move m (.canceller k) .cancelUpdate .step
        { m with state := .cancelled, trace := m.trace ++ [.cancelled m.owner] } .cancelSchedule
  | cancelSchedule {k : ℕ} : Move m (.canceller k) .cancelSchedule .step m.scheduleGlobal .idle
  | join {waker : W} : Move m .joiner .idle (.join waker) { m with pending := none }
      (.takeLock ⟨waker, m.woken.length⟩ false)
  | takeLock {call : JoinCall W} {again : Bool} (h : m.lock = none) :
      Move m .joiner (.takeLock call again) .step { m with lock := some .joiner } (.take call again)
  | takeNothing {call : JoinCall W} {again : Bool} (h : m.inner = .future) :
      Move m .joiner (.take call again) .step m (.takeUnlock call again none)
  | take {call : JoinCall W} {again : Bool} {val : Output V P} (h : m.inner = .ret val) :
      Move m .joiner (.take call again) .step
        { m with inner := .ret (.error .aborted), taken := m.taken.or (some val) }
        (.takeUnlock call again (some val))
  | joinReady {call : JoinCall W} {again : Bool} {val : Output V P} :
      Move m .joiner (.takeUnlock call again (some val)) .step
        { m with lock := none, joined := m.joined.or (some val) } .idle
  | joinRegister {call : JoinCall W} : Move m .joiner (.takeUnlock call false none) .step
      { m with lock := none } (.register call)
  | joinPending {call : JoinCall W} : Move m .joiner (.takeUnlock call true none) .step
      { m with lock := none, pending := some call } .idle
  | register {call : JoinCall W} : Move m .joiner (.register call) .step
      { m with waker := some call.waker } (.takeLock call true)

variable {m m' : Shared V P W} {p p' : Pc V P W} {a : Label V P W}

theorem move_of_workerStep {w : ℕ} (h : workerStep w m p a = some (m', p')) :
    Move m (.worker w) p a m' p' := by
  unfold workerStep at h
  split at h
  · split at h <;> cases h
    exact .refill ‹_›
  · split at h <;> cases h
    exact .dequeue ‹_›
  · split at h <;> cases h
    · exact .win ‹_›
    · exact .notify ‹_›
    · exact .runCancelled ‹_›
    · exact .runNothing (.inl ‹_›)
    · exact .runNothing (.inr ‹_›)
  · split at h <;> cases h
    exact .lock ‹_›
  · split at h <;> cases h
    · exact .enter ‹_›
    · exact .enterReturn ‹_›
  · split at h <;> cases h
    · exact .pending ‹_›
    · exact .finish ‹_›
  · cases h; exact .store
  · cases h; exact .unlockReady
  · cases h; exact .wakeReady
  · cases h; exact .unlockPending
  · split at h <;> cases h
    · exact .close ‹_›
    · exact .closeNotified ‹_›
    · exact .closeCancelled ‹_›
    · exact .closeNothing (.inl ‹_›)
    · exact .closeNothing (.inr ‹_›)
  · cases h; exact .requeue
  · split at h <;> cases h
    exact .cancelLock ‹_›
  · split at h <;> cases h
    · exact .abort ‹_›
    · exact .abortNothing ‹_›
  · cases h; exact .cancelStore
  · cases h; exact .cancelUnlock
  · cases h; exact .cancelWake
  · cases h

theorem move_of_wakerStep {k : ℕ} (h : wakerStep m p a = some (m', p')) :
    Move m (.waker k) p a m' p' := by
  unfold wakerStep at h
  split at h
  all_goals cases h
  · exact .wake
  · exact .enqueueLocal
  · exact .enqueueGlobal

theorem move_of_cancellerStep {k : ℕ} (h : cancellerStep m p a = some (m', p')) :
    Move m (.canceller k) p a m' p' := by
  unfold cancellerStep at h
  split at h
  · cases h; exact .cancel
  · split at h <;> cases h
    · exact .cancelNothing (.inl ‹_›)
    · exact .cancelNothing (.inr ‹_›)
    all_goals exact .cancelUpdate (by simp_all)
  · cases h; exact .cancelSchedule
  · cases h

theorem move_of_joinerStep (h : joinerStep m p a = some (m', p')) :
    Move m .joiner p a m' p' := by
  unfold joinerStep at h
  split at h
  · cases h; exact .join
  · split at h <;> cases h
    exact .takeLock ‹_›
  · split at h <;> cases h
    · exact .takeNothing ‹_›
    · exact .take ‹_›
  · cases h; exact .joinReady
  · cases h; exact .joinRegister
  · cases h; exact .joinPending
  · cases h; exact .register
  · cases h

theorem move_of_step {i : Agent} (h : step i m p a = some (m', p')) : Move m i p a m' p' := by
  cases i with
  | worker w => exact move_of_workerStep h
  | waker k => exact move_of_wakerStep h
  | canceller k => exact move_of_cancellerStep h
  | joiner => exact move_of_joinerStep h

end ArcDischarge.Task
