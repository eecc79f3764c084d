import ArcDischarge.Data.VecDeque
import ArcDischarge.Machine.System

/-!
# The queues of the tasks

Any number of runtimes with their workers, and any number of other threads, some of them in a
`block_on` (`src/lib.rs`, `src/task.rs`). A task is scheduled by `MTRuntime::spawn`, by the free
`spawn`, by a wake, by a `cancel`, and by `run` when its task was notified meanwhile; each goes to
the local queue of the thread's handle or to the global queue of the task's runtime. Workers take
tasks from their local queue and refill it from the global one.

What a thread does on its own is done in one step, and so is what it does under the lock of a global
queue. Whom `schedule_global` wakes afterwards, and how a worker polls and parks, is the subject of
`Runtime/Model.lean`: here a worker that finds nothing to do polls or parks as the environment
decides, and user code runs wherever the source calls it, in `run`, for the wakers of the events of
a poll, in a `block_on` and on other threads. There it may schedule whatever it likes.

A link is a flag of its task, and `push_back` panics when it is set. An `assert!` or `expect` that
fails in user code unwinds to whoever catches it, with no effect here. A panic under the lock of a
global queue poisons it.
-/

namespace ArcDischarge.Queues

inductive Thread where
  /-- A worker of a runtime. -/
  | worker (runtime index : ℕ)
  | other (k : ℕ)
  deriving DecidableEq, Repr

/-- An `Arc` of a task on its way through the queues. It is told from others of the same task by the
call that has scheduled it: the thread that made the call, and the number of the call there. -/
structure Entry where
  task : ℕ
  caller : Thread
  call : ℕ
  deriving DecidableEq, Repr

structure Shared where
  /-- The field `handle` of each task that has been allocated: its runtime. -/
  handle : ℕ → Option ℕ
  /-- The links that are linked. -/
  linked : ℕ → Bool
  /-- The global queue of each runtime, the front first. -/
  globalQueue : ℕ → List Entry
  /-- The global queues whose mutex is poisoned. -/
  poisoned : ℕ → Bool
  /-- What the queues have accepted so far. -/
  accepted : List Entry
  /-- What `schedule_global` has not pushed, with the global queue as it was. -/
  merged : List (Entry × List Entry)

/-- An `ExecutorHandle`, with the history of its local queue. -/
structure ExecutorHandle where
  shared : ℕ
  localQueue : VecDeque Entry
  pushed : List Entry
  popped : List Entry
  deriving DecidableEq, Repr

/-- The next step of a thread. -/
inductive Pc where
  /-- The top of the loop of a worker. -/
  | top
  /-- `get_many_global_tasks`. -/
  | getMany
  /-- There was no task: on to `poll_timeout`, or to park. `seen` is the global queue as it was when
  the worker has got its lock. -/
  | idle (seen : List Entry)
  | parked
  /-- User code, in the `run` of a task or elsewhere. -/
  | code (running : Option ℕ)
  /-- `schedule_global`: lock the global queue and push. -/
  | push (running : Option ℕ) (entry : Entry)
  | panicked
  deriving DecidableEq, Repr

/-- What belongs to one thread. -/
structure Local where
  /-- The thread-local `HANDLE`. -/
  handle : Option ExecutorHandle
  counter : BitVec 64
  pc : Pc
  /-- The number of times the thread has scheduled a task. -/
  calls : ℕ
  /-- What the thread has handed to `run`. -/
  handed : List Entry
  deriving DecidableEq, Repr

inductive Label where
  | step
  /-- `io_driver.try_lock()` succeeds: `poll_timeout`. -/
  | pollTimeout
  | park
  /-- User code returns, or the wait of a parked worker. -/
  | ret
  /-- `MTRuntime::spawn`, with the task that it allocates. -/
  | spawnOn (runtime task : ℕ)
  /-- The free `spawn`. -/
  | spawn (task : ℕ)
  /-- `wake_by_ref`. -/
  | wake (task : ℕ)
  /-- A `cancel` that has changed the state of its task. -/
  | cancel (task : ℕ)
  /-- `run` requeues its task. -/
  | requeue
  /-- Enter `block_on`. -/
  | blockOn (runtime : ℕ)
  /-- Leave it, by return or by panic. -/
  | reset
  deriving DecidableEq, Repr

/-! ## The queues -/

namespace ExecutorHandle

def new (runtime capacity : ℕ) : ExecutorHandle := ⟨runtime, .withCapacity capacity, [], []⟩

def push (h : ExecutorHandle) (e : Entry) : ExecutorHandle :=
  { h with localQueue := h.localQueue.pushBack e, pushed := h.pushed ++ [e] }

/-- `get_local_task`. -/
def pop (h : ExecutorHandle) : Option (Entry × ExecutorHandle) :=
  h.localQueue.popFront.map fun r ↦
    (r.1, { h with localQueue := r.2, popped := h.popped ++ [r.1] })

end ExecutorHandle

namespace Shared

/-- `LinkedList::push_back`, which panics on an object that is linked already. -/
def pushBack (m : Shared) (r : ℕ) (e : Entry) : Option Shared :=
  if m.linked e.task then none
  else some { m with linked := Function.update m.linked e.task true
                     globalQueue := Function.update m.globalQueue r (m.globalQueue r ++ [e])
                     accepted := m.accepted ++ [e] }

/-- `LinkedList::pop_front`. -/
def popFront (m : Shared) (r : ℕ) : Option (Entry × Shared) :=
  match m.globalQueue r with
  | [] => none
  | e :: rest =>
    some (e, { m with linked := Function.update m.linked e.task false
                      globalQueue := Function.update m.globalQueue r rest })

/-- `JoinHandle::new` allocates a task with its runtime. -/
def allocate (m : Shared) (r t : ℕ) : Shared :=
  { m with handle := Function.update m.handle t (some r) }

end Shared

/-- The loop of `get_many_global_tasks`, of `n` rounds. -/
def getMany : ℕ → Shared → ExecutorHandle → Shared × ExecutorHandle
  | 0, m, h => (m, h)
  | n + 1, m, h =>
    match m.popFront h.shared with
    | some (e, m') => getMany n m' (h.push e)
    | none => getMany n m h

namespace Local

/-- The entry that the next call of the thread schedules. -/
def entry (ℓ : Local) (θ : Thread) (t : ℕ) : Entry := ⟨t, θ, ℓ.calls⟩

/-- The worker calls `run`. -/
def run (ℓ : Local) (h : ExecutorHandle) (e : Entry) : Local :=
  { ℓ with handle := some h, pc := .code (some e.task), handed := ℓ.handed ++ [e] }

/-- `schedule_global` is called. -/
def scheduleGlobal (ℓ : Local) (running : Option ℕ) (e : Entry) : Local :=
  { ℓ with pc := .push running e, calls := ℓ.calls + 1 }

end Local

/-! ## The steps -/

/-- `ExecutorHandle::schedule_local`. -/
def scheduleLocal (m : Shared) (ℓ : Local) (h : ExecutorHandle) (running : Option ℕ) (e : Entry) :
    Shared × Local :=
  if h.localQueue.length < h.localQueue.capacity then
    ({ m with accepted := m.accepted ++ [e] },
      { ℓ with handle := some (h.push e), calls := ℓ.calls + 1 })
  else (m, ℓ.scheduleGlobal running e)

/-- `MTRuntime::spawn` and `wake_by_ref` schedule a task locally if the thread's handle is one of
the task's runtime, else globally. -/
def schedule (m : Shared) (ℓ : Local) (r : ℕ) (running : Option ℕ) (e : Entry) : Shared × Local :=
  match ℓ.handle with
  | some h =>
    if h.shared = r then scheduleLocal m ℓ h running e else (m, ℓ.scheduleGlobal running e)
  | none => (m, ℓ.scheduleGlobal running e)

/-- What user code does with the scheduler. -/
def codeStep (θ : Thread) (m : Shared) (ℓ : Local) (running : Option ℕ) :
    Label → Option (Shared × Local)
  | .spawnOn r t =>
    if m.handle t = none then some (schedule (m.allocate r t) ℓ r running (ℓ.entry θ t)) else none
  | .spawn t =>
    match ℓ.handle with
    | some h =>
      if m.handle t = none then
        some (scheduleLocal (m.allocate h.shared t) ℓ h running (ℓ.entry θ t))
      else none
    | none => some (m, ℓ)
  | .wake t => (m.handle t).map fun r ↦ schedule m ℓ r running (ℓ.entry θ t)
  | .cancel t => (m.handle t).map fun _ ↦ (m, ℓ.scheduleGlobal running (ℓ.entry θ t))
  | .requeue =>
    running.bind fun t ↦ (m.handle t).map fun _ ↦ (m, ℓ.scheduleGlobal running (ℓ.entry θ t))
  | .blockOn r =>
    match ℓ.handle with
    | some _ => some (m, ℓ)
    | none => some (m, { ℓ with handle := some (.new r 0) })
  | .reset =>
    match θ with
    | .other _ => some (m, { ℓ with handle := none })
    | .worker _ _ => none
  | .ret =>
    match θ with
    | .worker _ _ => some (m, { ℓ with pc := .top })
    | .other _ => none
  | _ => none

/-- The locked part of `schedule_global`. -/
def pushStep (m : Shared) (ℓ : Local) (running : Option ℕ) (e : Entry) : Option (Shared × Local) :=
  (m.handle e.task).map fun r ↦
    if m.poisoned r then (m, { ℓ with pc := .panicked })
    else if m.linked e.task then
      ({ m with merged := m.merged ++ [(e, m.globalQueue r)] }, { ℓ with pc := .code running })
    else
      match m.pushBack r e with
      | some m' => (m', { ℓ with pc := .code running })
      | none =>
        ({ m with poisoned := Function.update m.poisoned r true }, { ℓ with pc := .panicked })

/-- The top of the loop of `run_forever`. -/
def topStep (m : Shared) (ℓ : Local) (h : ExecutorHandle) : Shared × Local :=
  let counter := ℓ.counter + 1
  let task := if counter.toNat % 31 ≠ 0 ∨ h.localQueue.length > 16 then h.pop else none
  match task with
  | some (e, h') => (m, { ℓ with counter }.run h' e)
  | none => (m, { ℓ with counter, pc := .getMany })

/-- `get_many_global_tasks`. -/
def getManyStep (m : Shared) (ℓ : Local) (h : ExecutorHandle) : Shared × Local :=
  if m.poisoned h.shared then (m, { ℓ with pc := .panicked })
  else
    let r := getMany 4 m h
    match r.2.pop with
    | some (e, h') => (r.1, ℓ.run h' e)
    | none => (r.1, { ℓ with handle := some r.2, pc := .idle (m.globalQueue h.shared) })

def step (θ : Thread) (m : Shared) (ℓ : Local) (a : Label) : Option (Shared × Local) :=
  match ℓ.pc, a with
  | .top, .step => ℓ.handle.map (topStep m ℓ)
  | .getMany, .step => ℓ.handle.map (getManyStep m ℓ)
  | .idle _, .pollTimeout => some (m, { ℓ with pc := .code none })
  | .idle _, .park => some (m, { ℓ with pc := .parked })
  | .parked, .ret => some (m, { ℓ with pc := .top })
  | .push running e, .step => pushStep m ℓ running e
  | .code running, a => codeStep θ m ℓ running a
  | _, _ => none

abbrev State := Config Thread Shared Local

/-- No task has been allocated, and every worker is about to begin, with a local queue of the given
capacity. -/
def State.new (capacity : ℕ) : State where
  shared :=
    { handle := fun _ ↦ none
      linked := fun _ ↦ false
      globalQueue := fun _ ↦ []
      poisoned := fun _ ↦ false
      accepted := []
      merged := [] }
  pc
    | .worker r _ => ⟨some (.new r capacity), 0, .top, 0, []⟩
    | .other _ => ⟨none, 0, .code none, 0, []⟩

/-- Runtimes whose workers have local queues of the given capacity. In the source it is 32. -/
def system (capacity : ℕ) : System Thread Shared Local Label where
  init c := c = State.new capacity
  step := step

abbrev machine (capacity : ℕ) : Machine State (Thread × Label) := (system capacity).machine

end ArcDischarge.Queues
