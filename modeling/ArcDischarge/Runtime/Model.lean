import ArcDischarge.Machine.System
import ArcDischarge.SyncSlotMap.Model

/-!
# Workers and schedulers

The worker loop `ExecutorHandle::run_forever` (`src/lib.rs`) and `Task::schedule_global`
(`src/task.rs`), for one runtime with `n` workers and any number of other threads. An atomic step is
a critical section of the global queue, a lock, `try_lock` or unlock of `parked_workers`, of a
worker's `parker` or of `io_driver`, an access to an atomic of the slot map, a Condvar notify or
wait, a mio wake, or the return of a mio poll.

What a task does while it runs, and which wakers the driver calls for its events, is the
environment's choice: in both places the worker may call `schedule_local` and `schedule_global` for
any task, any number of times. Tasks are numbers here; a task's link is marked exactly while the
task is in the global queue, so `is_linked` is membership.

Of `mio::Waker` only this is assumed: a wake stays pending until some poll returns with it. A poll
may also return without it, for an event or for a signal.
-/

namespace ArcDischarge.Runtime

inductive Thread where
  | worker (i : ℕ)
  | other (k : ℕ)
  deriving DecidableEq, Repr

inductive WorkerThreadWaker where
  | parked
  deriving DecidableEq, Repr

/-- The state of a worker's `unparker`, on which only that worker waits. -/
inductive Condvar where
  | idle
  | waiting
  | notified
  deriving DecidableEq, Repr

/-- `Condvar::notify_one`, which is lost when nobody waits. -/
def Condvar.notifyOne : Condvar → Condvar
  | .waiting => .notified
  | c => c

/-- An `MTRuntime` with its workers. A lock is its holder. -/
structure Shared where
  /-- The number of workers. -/
  n : ℕ
  /-- The capacity of a worker's local queue. -/
  capacity : ℕ
  globalQueue : List ℕ
  parkedWorkers : SyncSlotMap.State
  parkedLock : Option Thread
  parker : ℕ → Option WorkerThreadWaker
  parkerLock : ℕ → Option Thread
  unparker : ℕ → Condvar
  ioDriver : Option Thread
  /-- A mio wake that no poll has returned with yet. -/
  wakePending : Bool

/-! ## `Task::schedule_global` -/

/-- The next step of a `schedule_global` call. -/
inductive Call where
  /-- Lock the global queue, push unless linked, unlock. -/
  | push (task : ℕ)
  /-- `parked_workers.try_lock()`. -/
  | tryLock
  /-- Enter `parked.pop()`. -/
  | callPop
  /-- Inside `parked.pop()`. -/
  | pop
  /-- `worker.parker.lock()` for the worker popped. -/
  | lockParker (i : ℕ)
  /-- `match *x`. -/
  | inspect (i : ℕ)
  /-- `worker.unparker.notify_one()`, after `*x = None`. -/
  | notify (i : ℕ)
  /-- Drop `x`, and loop again or leave the loop. -/
  | release (i : ℕ) (again : Bool)
  /-- `io_handle.wake()`. -/
  | wakeIo
  /-- Drop `parked`. -/
  | unlock
  | panicked
  deriving DecidableEq, Repr

/-- Where a `schedule_global` goes after a step inside `pop()`: on while the call lasts, then to the
worker returned, or to the driver. Indexing `workers` out of range panics. -/
def afterPop (n : ℕ) (q : SyncSlotMap.State) : Call :=
  match q.popping, q.calls.getLast? with
  | some _, _ => .pop
  | none, some ⟨.ready i, _, _, _⟩ => if i < n then .lockParker i else .panicked
  | none, _ => .wakeIo

/-- One step of a `schedule_global` call made by `θ`; no counter means that it has returned. -/
def callStep (θ : Thread) (m : Shared) : Call → Option (Shared × Option Call)
  | .push t =>
    some ({ m with globalQueue :=
      if t ∈ m.globalQueue then m.globalQueue else m.globalQueue ++ [t] }, some .tryLock)
  | .tryLock =>
    match m.parkedLock with
    | some _ => some (m, none)
    | none => some ({ m with parkedLock := some θ }, some .callPop)
  | .callPop =>
    (SyncSlotMap.step m.parkedWorkers .pop).map fun q ↦ ({ m with parkedWorkers := q }, some .pop)
  | .pop =>
    (SyncSlotMap.step m.parkedWorkers .popStep).map fun q ↦
      ({ m with parkedWorkers := q }, some (afterPop m.n q))
  | .lockParker i =>
    match m.parkerLock i with
    | some _ => none
    | none =>
      some ({ m with parkerLock := Function.update m.parkerLock i (some θ) }, some (.inspect i))
  | .inspect i =>
    match m.parker i with
    | some .parked => some ({ m with parker := Function.update m.parker i none }, some (.notify i))
    | none => some (m, some (.release i true))
  | .notify i =>
    some ({ m with unparker := Function.update m.unparker i (m.unparker i).notifyOne },
      some (.release i false))
  | .release i again =>
    some ({ m with parkerLock := Function.update m.parkerLock i none },
      some (if again then .callPop else .unlock))
  | .wakeIo => some ({ m with wakePending := true }, some .unlock)
  | .unlock => some ({ m with parkedLock := none }, none)
  | .panicked => none

/-! ## `ExecutorHandle::run_forever` -/

/-- The next step of a worker, outside any `schedule_global` call. -/
inductive Base where
  /-- Not a worker. -/
  | outside
  /-- The top of the loop: count, and try the local queue. -/
  | top
  /-- `get_many_global_tasks`. -/
  | getGlobal
  /-- `task.run()`. -/
  | running (task : ℕ)
  /-- `io_driver.try_lock()`. -/
  | tryLockIo
  /-- Blocked in the mio poll of `poll_timeout`. -/
  | polling
  /-- The event loop of `poll_timeout`. -/
  | events
  /-- Drop `io`. -/
  | unlockIo
  /-- `worker.parker.lock()`. -/
  | lockParker
  /-- `if parking.is_none()`. -/
  | checkParker
  /-- Inside `parked_workers.push(i)`. -/
  | pushing
  /-- `*parking = Some(Parked)`. -/
  | park
  /-- `worker.unparker.wait(parking)`: release the lock and wait, at once. -/
  | wait
  | waiting
  /-- The wait has returned and takes the lock again. -/
  | relock
  /-- `* … = None`. -/
  | unpark
  /-- Drop the guard. -/
  | release
  deriving DecidableEq, Repr

/-- The program counter of a thread, with a worker's private data. -/
structure Local where
  base : Base
  /-- The `schedule_global` call that the thread is inside. -/
  call : Option Call
  counter : BitVec 64
  localQueue : List ℕ
  deriving DecidableEq, Repr

/-- What the environment decides at a step. -/
inductive Label where
  /-- Go on; for a running task and for the event loop, finish. -/
  | step
  /-- A Condvar wait returns without a notification. -/
  | spurious
  /-- `schedule_local` is called for a task. -/
  | scheduleLocal (task : ℕ)
  /-- `schedule_global` is called for a task. -/
  | scheduleGlobal (task : ℕ)
  /-- The mio poll returns, with the pending wake or without it. -/
  | pollReturn (delivered : Bool)
  deriving DecidableEq, Repr

/-- `ExecutorHandle::schedule_local`. -/
def scheduleLocal (m : Shared) (ℓ : Local) (t : ℕ) : Local :=
  if ℓ.localQueue.length < m.capacity then { ℓ with localQueue := ℓ.localQueue ++ [t] }
  else { ℓ with call := some (.push t) }

/-- The top of the loop: the local queue is skipped on every 31st round unless it is long. -/
def top (ℓ : Local) : Local :=
  let counter := ℓ.counter + 1
  if counter.toNat % 31 ≠ 0 ∨ ℓ.localQueue.length > 16 then
    match ℓ.localQueue with
    | t :: q => { ℓ with base := .running t, counter := counter, localQueue := q }
    | [] => { ℓ with base := .getGlobal, counter := counter }
  else { ℓ with base := .getGlobal, counter := counter }

/-- `get_many_global_tasks`: move up to four tasks, then take the front of the local queue. -/
def getGlobal (m : Shared) (ℓ : Local) : Shared × Local :=
  ({ m with globalQueue := m.globalQueue.drop 4 },
    match ℓ.localQueue ++ m.globalQueue.take 4 with
    | t :: q => { ℓ with base := .running t, localQueue := q }
    | [] => { ℓ with base := .tryLockIo, localQueue := [] })

/-- One step of worker `i` outside any `schedule_global` call. -/
def workerStep (i : ℕ) (m : Shared) (ℓ : Local) : Base → Label → Option (Shared × Local)
  | .top, .step => some (m, top ℓ)
  | .getGlobal, .step => some (getGlobal m ℓ)
  | .running _, .step => some (m, { ℓ with base := .top })
  | .running _, .scheduleLocal t => some (m, scheduleLocal m ℓ t)
  | .running _, .scheduleGlobal t => some (m, { ℓ with call := some (.push t) })
  | .tryLockIo, .step =>
    match m.ioDriver with
    | none => some ({ m with ioDriver := some (.worker i) }, { ℓ with base := .polling })
    | some _ => some (m, { ℓ with base := .lockParker })
  | .polling, .pollReturn delivered =>
    some ({ m with wakePending := m.wakePending && !delivered }, { ℓ with base := .events })
  | .events, .step => some (m, { ℓ with base := .unlockIo })
  | .events, .scheduleLocal t => some (m, scheduleLocal m ℓ t)
  | .events, .scheduleGlobal t => some (m, { ℓ with call := some (.push t) })
  | .unlockIo, .step => some ({ m with ioDriver := none }, { ℓ with base := .top })
  | .lockParker, .step =>
    match m.parkerLock i with
    | some _ => none
    | none => some ({ m with parkerLock := Function.update m.parkerLock i (some (.worker i)) },
        { ℓ with base := .checkParker })
  | .checkParker, .step =>
    match m.parker i with
    | some _ => some (m, { ℓ with base := .park })
    | none => (SyncSlotMap.step m.parkedWorkers (.push i)).map fun q ↦
        ({ m with parkedWorkers := q }, { ℓ with base := .pushing })
  | .pushing, .step =>
    (SyncSlotMap.step m.parkedWorkers (.pushStep i)).map fun q ↦
      ({ m with parkedWorkers := q },
        { ℓ with base := if q.pushing i = none then .park else .pushing })
  | .park, .step =>
    some ({ m with parker := Function.update m.parker i (some .parked) }, { ℓ with base := .wait })
  | .wait, .step =>
    some ({ m with parkerLock := Function.update m.parkerLock i none
                   unparker := Function.update m.unparker i .waiting }, { ℓ with base := .waiting })
  | .waiting, .step =>
    if m.unparker i = .notified then
      some ({ m with unparker := Function.update m.unparker i .idle }, { ℓ with base := .relock })
    else none
  | .waiting, .spurious =>
    some ({ m with unparker := Function.update m.unparker i .idle }, { ℓ with base := .relock })
  | .relock, .step =>
    match m.parkerLock i with
    | some _ => none
    | none => some ({ m with parkerLock := Function.update m.parkerLock i (some (.worker i)) },
        { ℓ with base := .unpark })
  | .unpark, .step =>
    some ({ m with parker := Function.update m.parker i none }, { ℓ with base := .release })
  | .release, .step =>
    some ({ m with parkerLock := Function.update m.parkerLock i none }, { ℓ with base := .top })
  | _, _ => none

/-! ## The runtime -/

/-- One step of a thread: inside its `schedule_global` call if there is one. A thread that is not a
worker does nothing but call `schedule_global`. -/
def step (θ : Thread) (m : Shared) (ℓ : Local) (a : Label) : Option (Shared × Local) :=
  match ℓ.call, θ, a with
  | some c, _, .step => (callStep θ m c).map fun r ↦ (r.1, { ℓ with call := r.2 })
  | some _, _, _ => none
  | none, .other _, .scheduleGlobal t => some (m, { ℓ with call := some (.push t) })
  | none, .other _, _ => none
  | none, .worker i, a => workerStep i m ℓ ℓ.base a

/-- `MTRuntime::new`, once the workers have started. -/
def Shared.new (n capacity : ℕ) : Shared where
  n := n
  capacity := capacity
  globalQueue := []
  parkedWorkers := .new n
  parkedLock := none
  parker := fun _ ↦ none
  parkerLock := fun _ ↦ none
  unparker := fun _ ↦ .idle
  ioDriver := none
  wakePending := false

def Local.new (n : ℕ) : Thread → Local
  | .worker i => ⟨if i < n then .top else .outside, none, 0, []⟩
  | .other _ => ⟨.outside, none, 0, []⟩

/-- A state of the runtime. -/
abbrev State := Config Thread Shared Local

def State.new (n capacity : ℕ) : State := ⟨.new n capacity, .new n⟩

/-- A runtime of `n` workers with local queues of the given capacity. -/
def system (n capacity : ℕ) : System Thread Shared Local Label where
  init c := c = State.new n capacity
  step := step

/-- All its interleavings. -/
abbrev machine (n capacity : ℕ) : Machine State (Thread × Label) := (system n capacity).machine

end ArcDischarge.Runtime
