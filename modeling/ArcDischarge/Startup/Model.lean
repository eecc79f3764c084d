import ArcDischarge.Machine.System
import Mathlib.Data.List.Range

/-!
# Starting the runtime

`MTRuntime::new` and `init_workers` (`src/lib.rs`). The main thread makes the driver and spawns the
workers one after the other. Each worker parks until the slice of workers has been published, since
its own `Worker` is in there; the main thread publishes it and unparks them all. A thread may fail
to spawn, and the system calls behind the driver may fail: then `new` panics.

A worker may look for the slice just before it is published and park just after it was unparked, or
wake up spuriously; its park token makes up for both. From `running` on, `Runtime/Model` takes over.
-/

namespace ArcDischarge.Startup

inductive Agent where
  | main
  | worker (i : ℕ)
  deriving DecidableEq, Repr

structure Shared where
  /-- How many threads have been spawned. -/
  spawned : ℕ
  /-- `workers`: the thread of each `Worker`, once the slice is set. -/
  workers : Option (List ℕ)
  /-- The park token of each worker's thread. -/
  token : ℕ → Bool

inductive Pc where
  /-- `IODriver::new`. -/
  | driver
  /-- The loop of `init_workers`, with the workers pushed so far. -/
  | spawn (workers : List ℕ)
  /-- `self.workers.set(workers.into_boxed_slice()).unwrap()`. -/
  | set (workers : List ℕ)
  /-- The loop that unparks, at the `Worker` with this index. -/
  | unpark (i : ℕ)
  | returned
  | panicked
  /-- The worker's thread has not started. -/
  | unborn
  /-- `exec.shared.workers.get().is_none()`. -/
  | check
  /-- `thread::park()`. -/
  | park
  /-- `run_forever`: `&workers[self.worker_index]`. -/
  | enter
  | running
  deriving DecidableEq, Repr

inductive Label where
  | step
  /-- A system call of the main thread fails. -/
  | fail
  | spurious
  deriving DecidableEq, Repr

/-- One step of `MTRuntime::new` with `n` workers. -/
def mainStep (n : ℕ) (m : Shared) : Pc → Label → Option (Shared × Pc)
  | .driver, .step => some (m, .spawn [])
  | .driver, .fail => some (m, .panicked)
  | .spawn ws, .step =>
    if ws.length < n then
      some ({ m with spawned := ws.length + 1 }, .spawn (ws ++ [ws.length]))
    else some (m, .set ws)
  | .spawn ws, .fail => if ws.length < n then some (m, .panicked) else none
  | .set ws, .step =>
    match m.workers with
    | none => some ({ m with workers := some ws }, .unpark 0)
    | some _ => some (m, .panicked)
  | .unpark i, .step =>
    match m.workers with
    | none => some (m, .panicked)
    | some ws =>
      match ws[i]? with
      | some thread =>
        some ({ m with token := Function.update m.token thread true }, .unpark (i + 1))
      | none => some (m, .returned)
  | _, _ => none

/-- One step of the thread of worker `i`. -/
def workerStep (i : ℕ) (m : Shared) : Pc → Label → Option (Shared × Pc)
  | .unborn, .step => if i < m.spawned then some (m, .check) else none
  | .check, .step =>
    match m.workers with
    | none => some (m, .park)
    | some _ => some (m, .enter)
  | .park, .step =>
    if m.token i then some ({ m with token := Function.update m.token i false }, .check) else none
  | .park, .spurious => some (m, .check)
  | .enter, .step =>
    match m.workers with
    | none => some (m, .panicked)
    | some ws =>
      match ws[i]? with
      | some _ => some (m, .running)
      | none => some (m, .panicked)
  | _, _ => none

def step (n : ℕ) : Agent → Shared → Pc → Label → Option (Shared × Pc)
  | .main => mainStep n
  | .worker i => workerStep i

abbrev State := Config Agent Shared Pc

def State.new : State where
  shared := { spawned := 0, workers := none, token := fun _ ↦ false }
  pc i := match i with
    | .main => .driver
    | .worker _ => .unborn

def system (n : ℕ) : System Agent Shared Pc Label where
  init c := c = State.new
  step := step n

abbrev machine (n : ℕ) : Machine State (Agent × Label) := (system n).machine

/-! ## What a step can do -/

inductive Move (n : ℕ) (m : Shared) : Agent → Pc → Label → Shared → Pc → Prop where
  | driver : Move n m .main .driver .step m (.spawn [])
  | driverFails : Move n m .main .driver .fail m .panicked
  | spawn {ws : List ℕ} (h : ws.length < n) : Move n m .main (.spawn ws) .step
      { m with spawned := ws.length + 1 } (.spawn (ws ++ [ws.length]))
  | spawned {ws : List ℕ} (h : n ≤ ws.length) : Move n m .main (.spawn ws) .step m (.set ws)
  | spawnFails {ws : List ℕ} (h : ws.length < n) : Move n m .main (.spawn ws) .fail m .panicked
  | set {ws : List ℕ} (h : m.workers = none) : Move n m .main (.set ws) .step
      { m with workers := some ws } (.unpark 0)
  | setAgain {ws ws' : List ℕ} (h : m.workers = some ws') :
      Move n m .main (.set ws) .step m .panicked
  | unparkNone {i : ℕ} (h : m.workers = none) : Move n m .main (.unpark i) .step m .panicked
  | unpark {i thread : ℕ} {ws : List ℕ} (h : m.workers = some ws) (hi : ws[i]? = some thread) :
      Move n m .main (.unpark i) .step
        { m with token := Function.update m.token thread true } (.unpark (i + 1))
  | unparked {i : ℕ} {ws : List ℕ} (h : m.workers = some ws) (hi : ws[i]? = none) :
      Move n m .main (.unpark i) .step m .returned
  | start {i : ℕ} (h : i < m.spawned) : Move n m (.worker i) .unborn .step m .check
  | checkNone {i : ℕ} (h : m.workers = none) : Move n m (.worker i) .check .step m .park
  | check {i : ℕ} {ws : List ℕ} (h : m.workers = some ws) :
      Move n m (.worker i) .check .step m .enter
  | park {i : ℕ} (h : m.token i = true) : Move n m (.worker i) .park .step
      { m with token := Function.update m.token i false } .check
  | spurious {i : ℕ} : Move n m (.worker i) .park .spurious m .check
  | enterNone {i : ℕ} (h : m.workers = none) : Move n m (.worker i) .enter .step m .panicked
  | enter {i thread : ℕ} {ws : List ℕ} (h : m.workers = some ws) (hi : ws[i]? = some thread) :
      Move n m (.worker i) .enter .step m .running
  | enterOut {i : ℕ} {ws : List ℕ} (h : m.workers = some ws) (hi : ws[i]? = none) :
      Move n m (.worker i) .enter .step m .panicked

variable {n : ℕ} {m m' : Shared} {p p' : Pc} {a : Label} {i : Agent}

theorem move_of_mainStep (h : mainStep n m p a = some (m', p')) : Move n m .main p a m' p' := by
  unfold mainStep at h
  split at h
  · cases h; exact .driver
  · cases h; exact .driverFails
  · split at h <;> cases h
    · exact .spawn ‹_›
    · exact .spawned (not_lt.mp ‹_›)
  · split at h <;> cases h
    exact .spawnFails ‹_›
  · split at h <;> cases h
    · exact .set ‹_›
    · exact .setAgain ‹_›
  · split at h
    · cases h; exact .unparkNone ‹_›
    · split at h <;> cases h
      · exact .unpark ‹_› ‹_›
      · exact .unparked ‹_› ‹_›
  · cases h

theorem move_of_workerStep {i : ℕ} (h : workerStep i m p a = some (m', p')) :
    Move n m (.worker i) p a m' p' := by
  unfold workerStep at h
  split at h
  · split at h <;> cases h
    exact .start ‹_›
  · split at h <;> cases h
    · exact .checkNone ‹_›
    · exact .check ‹_›
  · split at h <;> cases h
    exact .park ‹_›
  · cases h; exact .spurious
  · split at h
    · cases h; exact .enterNone ‹_›
    · split at h <;> cases h
      · exact .enter ‹_› ‹_›
      · exact .enterOut ‹_› ‹_›
  · cases h

theorem move_of_step (h : step n i m p a = some (m', p')) : Move n m i p a m' p' := by
  cases i with
  | main => exact move_of_mainStep h
  | worker i => exact move_of_workerStep h

end ArcDischarge.Startup
