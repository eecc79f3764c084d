import ArcDischarge.Task.Joiner
import ArcDischarge.Task.Output
import ArcDischarge.Task.Turns

/-!
# Blocking on a task

`runtime.block_on(handle)` (`src/lib.rs`, `src/join_handle.rs`): the calling thread polls the
`JoinHandle` with a waker that unparks the thread, and parks while the handle is pending. The task
is the one of `Task/Model`, with every other agent as it is there; the joiner is the loop.

A thread has one park token. `unpark` makes it available, `park` returns by taking it, or spuriously
without it; anybody may unpark the thread, and the token may be there from before. The context that
`block_on` installs around the loop belongs to `Queues/Model`.
-/

namespace ArcDischarge.BlockOn

open ArcDischarge.Task Machine

variable {V P : Type*}

/-- Where the loop of `block_on` stands. -/
inductive Stage (V P : Type*) where
  /-- About to call `f.as_mut().poll(&mut cx)`. -/
  | call
  | polling
  /-- In `thread::park()`. -/
  | parked
  | returned (val : Output V P)

structure State (V P : Type*) where
  task : Task.State V P Unit
  /-- The park token of the calling thread. -/
  token : Bool
  stage : Stage V P

inductive Action (V P : Type*) where
  /-- A step of a worker, a waker or a canceller. -/
  | task (i : Agent) (a : Label V P Unit)
  /-- The loop polls the handle. -/
  | poll
  /-- A step of `JoinHandle::poll`. -/
  | step
  /-- `park` returns with the token. -/
  | park
  | spurious
  /-- Some other thread unparks the calling thread. -/
  | unpark
  deriving DecidableEq, Repr

/-- What a step of `JoinHandle::poll` leaves the loop at: the poll goes on, or it has returned. -/
def Stage.next : Pc V P Unit → Stage V P
  | .takeUnlock _ _ (some val) => .returned val
  | .takeUnlock _ true none => .parked
  | _ => .polling

/-- `ThreadWaker::wake` has been called. -/
def unparks (t t' : Task.State V P Unit) : Bool :=
  t.shared.woken.length < t'.shared.woken.length

def step (s : State V P) : Action V P → Option (State V P)
  | .task i a =>
    if i = .joiner then none
    else ((Task.machine V P Unit).step s.task (i, a)).map fun t ↦
      { s with task := t, token := s.token || unparks s.task t }
  | .poll =>
    match s.stage with
    | .call => ((Task.machine V P Unit).step s.task (.joiner, .join ())).map fun t ↦
        { s with task := t, stage := .polling }
    | _ => none
  | .step =>
    match s.stage with
    | .polling => ((Task.machine V P Unit).step s.task (.joiner, .step)).map fun t ↦
        { s with task := t, stage := .next (s.task.pc .joiner) }
    | _ => none
  | .park =>
    match s.stage with
    | .parked => if s.token then some { s with token := false, stage := .call } else none
    | _ => none
  | .spurious =>
    match s.stage with
    | .parked => some { s with stage := .call }
    | _ => none
  | .unpark => some { s with token := true }

/-- `block_on` is about to start on a task just spawned; the token may be there already. -/
def machine (V P : Type*) : Machine (State V P) (Action V P) where
  init s := s.task = .new ∧ s.stage = .call
  step := step

/-! ## What a step does -/

/-- The step function inverted. -/
inductive Move (s : State V P) : Action V P → State V P → Prop where
  | task {i : Agent} {a : Label V P Unit} {m : Shared V P Unit} {p : Pc V P Unit}
      (hi : i ≠ .joiner) (h : Task.Move s.task.shared i (s.task.pc i) a m p) :
      Move s (.task i a) { s with
        task := ⟨m, Function.update s.task.pc i p⟩
        token := s.token || unparks s.task ⟨m, Function.update s.task.pc i p⟩ }
  | poll {m : Shared V P Unit} {p : Pc V P Unit} (hstage : s.stage = .call)
      (h : Task.Move s.task.shared .joiner (s.task.pc .joiner) (.join ()) m p) :
      Move s .poll { s with
        task := ⟨m, Function.update s.task.pc .joiner p⟩
        stage := .polling }
  | step {m : Shared V P Unit} {p : Pc V P Unit} (hstage : s.stage = .polling)
      (h : Task.Move s.task.shared .joiner (s.task.pc .joiner) .step m p) :
      Move s .step { s with
        task := ⟨m, Function.update s.task.pc .joiner p⟩
        stage := .next (s.task.pc .joiner) }
  | park (hstage : s.stage = .parked) (htoken : s.token = true) :
      Move s .park { s with token := false, stage := .call }
  | spurious (hstage : s.stage = .parked) : Move s .spurious { s with stage := .call }
  | unpark : Move s .unpark { s with token := true }

variable {s t : State V P} {a : Action V P}

theorem move_of_step (h : (machine V P).step s a = some t) : Move s a t := by
  change step s a = some t at h
  unfold step at h
  split at h
  · split at h
    · cases h
    · rw [Option.map_eq_some_iff] at h
      obtain ⟨u, hu, rfl⟩ := h
      obtain ⟨m, p, hs, rfl⟩ := System.machine_step_eq_some.mp hu
      exact .task ‹_› (Task.move_of_step hs)
  · split at h
    · rw [Option.map_eq_some_iff] at h
      obtain ⟨u, hu, rfl⟩ := h
      obtain ⟨m, p, hs, rfl⟩ := System.machine_step_eq_some.mp hu
      exact .poll ‹_› (Task.move_of_step hs)
    · cases h
  · split at h
    · rw [Option.map_eq_some_iff] at h
      obtain ⟨u, hu, rfl⟩ := h
      obtain ⟨m, p, hs, rfl⟩ := System.machine_step_eq_some.mp hu
      exact .step ‹_› (Task.move_of_step hs)
    · cases h
  · split at h
    · split at h
      · cases h
        exact .park ‹_› ‹_›
      · cases h
    · cases h
  · split at h
    · cases h
      exact .spurious ‹_›
    · cases h
  · cases h
    exact .unpark

/-! ## The task inside -/

/-- The action of the task that an action of the whole stands for. -/
def Action.inner : Action V P → Option (Agent × Label V P Unit)
  | .task i a => some (i, a)
  | .poll => some (.joiner, .join ())
  | .step => some (.joiner, .step)
  | .park | .spurious | .unpark => none

theorem advance_of_step (h : (machine V P).step s a = some t) :
    (Task.machine V P Unit).advance s.task a.inner = some t.task := by
  change step s a = some t at h
  cases a with
  | task i a =>
    simp only [step] at h
    split at h
    · cases h
    · rw [Option.map_eq_some_iff] at h
      obtain ⟨u, hu, rfl⟩ := h
      exact hu
  | poll | step =>
    simp only [step] at h
    split at h
    · rw [Option.map_eq_some_iff] at h
      obtain ⟨u, hu, rfl⟩ := h
      exact hu
    · cases h
  | park | spurious | unpark =>
    simp only [step] at h
    repeat' split at h
    all_goals cases h
    all_goals rfl

/-- **The loop uses the task as `Task/Model` has it**: whatever blocks on it, a task runs one of its
own interleavings. -/
def refines (V P : Type*) : Refines (machine V P) (Task.machine V P Unit) where
  state := State.task
  act := Action.inner
  init _ h := h.1
  step _ _ _ h := advance_of_step h

theorem reachable_task (h : (machine V P).Reachable s) : (Task.machine V P Unit).Reachable s.task :=
  (refines V P).reachable h

end ArcDischarge.BlockOn
