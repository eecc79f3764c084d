import ArcDischarge.Machine.System
import Mathlib.Data.List.Basic

/-!
# One task

The life of one task (`src/task.rs`, `src/join_handle.rs`): workers take its entries from the queues
and `run` it, any number of threads wake and cancel it, and one joiner polls its `JoinHandle`. Each
access to the state byte, each acquisition and release of the future's mutex, each poll, each queue
operation and each use of the `AtomicWaker` is one step.

The user's future is the environment: at each poll it may return `Pending` or `Ready`, or panic. Its
output, its panic payloads and the joiner's wakers are arbitrary types. Who wakes the task, and
whether the wake goes to a local queue or to the global one, is left open as well; only the entries
of this task are counted in the queues. The spawn is a wake whose caller is about to enqueue.

The second half of the fields of `Shared` is history: no step reads it.
-/

namespace ArcDischarge.Task

/-- The state byte. -/
inductive Status where
  | idle
  | running
  | completed
  | cancelled
  /-- A notification was consumed by another worker during the current poll. -/
  | notified
  deriving DecidableEq, Repr

inductive JoinError (P : Type*) where
  | aborted
  | panic (payload : P)
  deriving DecidableEq, Repr

/-- `Result<F::Output, JoinError>`. -/
abbrev Output (V P : Type*) := Except (JoinError P) V

/-- What the mutex protects: the future, or its result. -/
inductive JoinInner (V P : Type*) where
  | future
  | ret (val : Output V P)

/-- How a poll of the user's future ends. -/
inductive Outcome (V P : Type*) where
  | pending
  | ready (val : V)
  | panicked (payload : P)
  deriving DecidableEq, Repr

/-- What happens to the user's future. -/
inductive Event (V P : Type*) where
  /-- Worker `w` calls `poll`. -/
  | polled (w : ℕ)
  /-- The poll returns, or unwinds. -/
  | polledTo (outcome : Outcome V P)
  /-- A cancellation takes effect, with the poll owner at that moment. -/
  | cancelled (owner : Option ℕ)
  /-- The future is dropped by a cancellation. -/
  | aborted
  deriving DecidableEq, Repr

inductive Agent where
  | worker (w : ℕ)
  | waker (k : ℕ)
  | canceller (k : ℕ)
  | joiner
  deriving DecidableEq, Repr

/-- A call of `JoinHandle::poll`: its waker, and how many wakers had been woken when it began. -/
structure JoinCall (W : Type*) where
  waker : W
  began : ℕ
  deriving DecidableEq, Repr

structure Shared (V P W : Type*) where
  state : Status
  /-- The holder of the mutex `fut`. -/
  lock : Option Agent
  inner : JoinInner V P
  /-- The `AtomicWaker`. -/
  waker : Option W
  /-- The task is in the global queue. -/
  linked : Bool
  /-- The number of entries in each worker's local queue. -/
  locals : ℕ → ℕ
  /-- The worker between its `IDLE -> RUNNING` and its closing update or its store of `COMPLETED`.
  -/
  owner : Option ℕ
  /-- What has happened to the future. -/
  trace : List (Event V P)
  /-- Spawned or woken since the start of the last poll. -/
  notified : Bool
  /-- Spawned or woken since the last `IDLE -> RUNNING`. -/
  sinceWin : Bool
  /-- The number of `IDLE -> RUNNING` updates. -/
  wins : ℕ
  /-- The number of `wake_by_ref` calls. -/
  wakes : ℕ
  /-- The wakers that the `AtomicWaker` has woken. -/
  woken : List W
  /-- The first output taken by `take_output`. -/
  taken : Option (Output V P)
  /-- The first output returned by `JoinHandle::poll`. -/
  joined : Option (Output V P)
  /-- The last call of `JoinHandle::poll`, if it returned `Pending`. -/
  pending : Option (JoinCall W)

variable {V P W : Type*}

/-- The part of `schedule_global` that concerns the task: pushed unless linked. -/
def Shared.scheduleGlobal (m : Shared V P W) : Shared V P W := { m with linked := true }

/-- `AtomicWaker::wake`: take the waker, if there is one, and wake it. -/
def Shared.wake (m : Shared V P W) : Shared V P W :=
  { m with waker := none, woken := m.woken ++ m.waker.toList }

/-- The next step of an agent. -/
inductive Pc (V P W : Type*) where
  | idle
  /-- `Task::run`: the first `try_update`. -/
  | run
  /-- `self.fut.lock()`. -/
  | lock
  /-- `JoinInner::poll`, up to the call of the future. -/
  | enter
  | polling
  /-- `self.state.store(COMPLETED)`. -/
  | store
  | unlockReady
  | wakeReady
  | unlockPending
  /-- The closing `try_update`. -/
  | close
  /-- `schedule_global` after `NOTIFIED`. -/
  | requeue
  /-- `finish_cancellation`: `self.fut.lock()`. -/
  | cancelLock
  | cancelSet
  /-- From here on with whether this call published the result. -/
  | cancelStore (published : Bool)
  | cancelUnlock (published : Bool)
  | cancelWake (published : Bool)
  /-- `wake_by_ref` or `spawn`: the task goes into a queue. -/
  | enqueue
  /-- `Task::cancel`: the `try_update`. -/
  | cancelUpdate
  /-- `schedule_global` after `CANCELLED`. -/
  | cancelSchedule
  /-- `take_output`, the first or the second one of a `JoinHandle::poll`. -/
  | takeLock (call : JoinCall W) (again : Bool)
  | take (call : JoinCall W) (again : Bool)
  | takeUnlock (call : JoinCall W) (again : Bool) (out : Option (Output V P))
  | register (call : JoinCall W)

/-- What the environment decides at a step. -/
inductive Label (V P W : Type*) where
  | step
  /-- `get_many_global_tasks` moves the task to the worker's local queue. -/
  | refill
  /-- The worker takes an entry of the task from its local queue. -/
  | dequeue
  | outcome (o : Outcome V P)
  | wake
  | enqueueLocal (w : ℕ)
  | enqueueGlobal
  | cancel
  /-- `JoinHandle::poll` is called with this waker. -/
  | join (waker : W)
  deriving DecidableEq, Repr

/-! ## The steps -/

/-- The `JoinInner` that a finished poll leaves. -/
def Outcome.output : Outcome V P → Option (Output V P)
  | .pending => none
  | .ready v => some (.ok v)
  | .panicked p => some (.error (.panic p))

/-- One step of worker `w`: `Task::run` with `finish_cancellation`. -/
def workerStep (w : ℕ) (m : Shared V P W) :
    Pc V P W → Label V P W → Option (Shared V P W × Pc V P W)
  | .idle, .refill =>
    if m.linked then
      some ({ m with linked := false
                     locals := Function.update m.locals w (m.locals w + 1) }, .idle)
    else none
  | .idle, .dequeue =>
    if 0 < m.locals w then
      some ({ m with locals := Function.update m.locals w (m.locals w - 1) }, .run)
    else none
  | .run, .step =>
    match m.state with
    | .idle =>
      some ({ m with state := .running, owner := some w, sinceWin := false, wins := m.wins + 1 },
        .lock)
    | .running => some ({ m with state := .notified }, .idle)
    | .cancelled => some (m, .cancelLock)
    | .completed | .notified => some (m, .idle)
  | .lock, .step =>
    match m.lock with
    | some _ => none
    | none => some ({ m with lock := some (.worker w) }, .enter)
  | .enter, .step =>
    match m.inner with
    | .future => some ({ m with trace := m.trace ++ [.polled w], notified := false }, .polling)
    | .ret _ => some (m, .unlockPending)
  | .polling, .outcome o =>
    match o.output with
    | none => some ({ m with trace := m.trace ++ [.polledTo o] }, .unlockPending)
    | some val =>
      some ({ m with inner := .ret val, trace := m.trace ++ [.polledTo o] }, .store)
  | .store, .step => some ({ m with state := .completed, owner := none }, .unlockReady)
  | .unlockReady, .step => some ({ m with lock := none }, .wakeReady)
  | .wakeReady, .step => some (m.wake, .idle)
  | .unlockPending, .step => some ({ m with lock := none }, .close)
  | .close, .step =>
    match m.state with
    | .running => some ({ m with state := .idle, owner := none }, .idle)
    | .notified => some ({ m with state := .idle, owner := none }, .requeue)
    | .cancelled => some ({ m with owner := none }, .cancelLock)
    | .idle | .completed => some ({ m with owner := none }, .idle)
  | .requeue, .step => some (m.scheduleGlobal, .idle)
  | .cancelLock, .step =>
    match m.lock with
    | some _ => none
    | none => some ({ m with lock := some (.worker w) }, .cancelSet)
  | .cancelSet, .step =>
    match m.inner with
    | .future =>
      some ({ m with inner := .ret (.error .aborted), trace := m.trace ++ [.aborted] },
        .cancelStore true)
    | .ret _ => some (m, .cancelStore false)
  | .cancelStore published, .step => some ({ m with state := .completed }, .cancelUnlock published)
  | .cancelUnlock published, .step => some ({ m with lock := none }, .cancelWake published)
  | .cancelWake _, .step => some (m.wake, .idle)
  | _, _ => none

/-- One step of a thread that wakes the task. -/
def wakerStep (m : Shared V P W) : Pc V P W → Label V P W → Option (Shared V P W × Pc V P W)
  | .idle, .wake =>
    some ({ m with notified := true, sinceWin := true, wakes := m.wakes + 1 }, .enqueue)
  | .enqueue, .enqueueLocal w =>
    some ({ m with locals := Function.update m.locals w (m.locals w + 1) }, .idle)
  | .enqueue, .enqueueGlobal => some (m.scheduleGlobal, .idle)
  | _, _ => none

/-- One step of a thread that cancels the task. -/
def cancellerStep (m : Shared V P W) : Pc V P W → Label V P W → Option (Shared V P W × Pc V P W)
  | .idle, .cancel => some (m, .cancelUpdate)
  | .cancelUpdate, .step =>
    match m.state with
    | .completed | .cancelled => some (m, .idle)
    | .idle | .running | .notified =>
      some ({ m with state := .cancelled, trace := m.trace ++ [.cancelled m.owner] },
        .cancelSchedule)
  | .cancelSchedule, .step => some (m.scheduleGlobal, .idle)
  | _, _ => none

/-- One step of the joiner: `JoinHandle::poll`. -/
def joinerStep (m : Shared V P W) : Pc V P W → Label V P W → Option (Shared V P W × Pc V P W)
  | .idle, .join w => some ({ m with pending := none }, .takeLock ⟨w, m.woken.length⟩ false)
  | .takeLock call again, .step =>
    match m.lock with
    | some _ => none
    | none => some ({ m with lock := some .joiner }, .take call again)
  | .take call again, .step =>
    match m.inner with
    | .future => some (m, .takeUnlock call again none)
    | .ret val =>
      some ({ m with inner := .ret (.error .aborted), taken := m.taken.or (some val) },
        .takeUnlock call again (some val))
  | .takeUnlock _ _ (some val), .step =>
    some ({ m with lock := none, joined := m.joined.or (some val) }, .idle)
  | .takeUnlock call false none, .step => some ({ m with lock := none }, .register call)
  | .takeUnlock call true none, .step =>
    some ({ m with lock := none, pending := some call }, .idle)
  | .register call, .step => some ({ m with waker := some call.waker }, .takeLock call true)
  | _, _ => none

def step : Agent → Shared V P W → Pc V P W → Label V P W → Option (Shared V P W × Pc V P W)
  | .worker w => workerStep w
  | .waker _ => wakerStep
  | .canceller _ => cancellerStep
  | .joiner => joinerStep

/-- `Task::new`. -/
def Shared.new : Shared V P W where
  state := .idle
  lock := none
  inner := .future
  waker := none
  linked := false
  locals := fun _ ↦ 0
  owner := none
  trace := []
  notified := true
  sinceWin := true
  wins := 0
  wakes := 0
  woken := []
  taken := none
  joined := none
  pending := none

abbrev State (V P W : Type*) := Config Agent (Shared V P W) (Pc V P W)

/-- A task just allocated, with its spawner (waker 0) about to enqueue it. -/
def State.new : State V P W where
  shared := .new
  pc := Function.update (fun _ ↦ .idle) (.waker 0) .enqueue

/-- A task with any number of workers, wakers and cancellers, and one joiner. -/
def system (V P W : Type*) : System Agent (Shared V P W) (Pc V P W) (Label V P W) where
  init c := c = State.new
  step := step

abbrev machine (V P W : Type*) : Machine (State V P W) (Agent × Label V P W) :=
  (system V P W).machine

end ArcDischarge.Task
