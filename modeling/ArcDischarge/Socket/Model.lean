import ArcDischarge.Io.StaleClear
import ArcDischarge.Machine.Fair

/-!
# A socket and its `ScheduledIo`

The slot of `Io/Model.lean` together with the socket it stands for. The selector is edge-triggered:
it reports a direction when it becomes ready, not as long as it is, so a readiness that the runtime
forgets is not reported again. What keeps it from forgetting is a discipline of all the code that
clears: `poll_io`, `try_io` and `async_io` (`src/io/registration.rs`), `poll_read` and `poll_write`
(`src/io/poll_evented.rs`) and `poll_peek` (`src/net/tcp/stream.rs`) give an event to
`clear_readiness` only after the operation they fetched it for has found nothing left in its
direction, or, where `poll_write` has written a part of its buffer, has left nothing.

The peer and the selector are the environment: data and room come at any time, an event may report
more than there is, and it may be late.
-/

namespace ArcDischarge.Socket

open Io (Agent Captured Direction Event Interest Label Ready)

/-- What the operating system knows of a socket. -/
structure Kernel where
  /-- An operation in this direction would not block. -/
  ready : Direction → Bool
  /-- The selector still has to report the direction. -/
  edge : Direction → Bool

structure State where
  io : Io.State
  kernel : Kernel

inductive Action where
  /-- A step of the runtime other than the following two. -/
  | io (i : Agent) (a : Label)
  /-- `poll_timeout`, with the event for the socket if there is one. -/
  | turn (event : Option Event)
  /-- An operation of thread `k` has found nothing left, or has left nothing, in the directions of
  the `n`-th event that is held: the call of `clear_readiness`. -/
  | exhaust (k n : ℕ)
  /-- An operation uses up what there is and does not notice. -/
  | take (d : Direction)
  /-- Data, room, a connection or an end of the stream arrives. -/
  | arrive (d : Direction)
  deriving DecidableEq

namespace Kernel

/-- The event is on its way to the driver. -/
def report (κ : Kernel) (event : Option Event) : Kernel :=
  { κ with edge := fun d ↦ κ.edge d && !event.any fun e ↦ d.wokenBy (.fromMio e) }

def exhaust (κ : Kernel) (ready : Ready) : Kernel :=
  { κ with ready := fun d ↦ κ.ready d && !d.wokenBy ready }

def take (κ : Kernel) (d : Direction) : Kernel :=
  { κ with ready := Function.update κ.ready d false }

def arrive (κ : Kernel) (d : Direction) : Kernel where
  ready := Function.update κ.ready d true
  edge := Function.update κ.edge d true

end Kernel

/-- The steps of the runtime that do not depend on the socket. -/
def ofRuntime : Label → Bool
  | .turn _ | .clearReadiness _ => false
  | _ => true

def step (interest : ℕ → Interest) (s : State) : Action → Option State
  | .io i a =>
    if ofRuntime a then ((Io.machine interest).step s.io (i, a)).map fun c ↦ ⟨c, s.kernel⟩
    else none
  | .turn event =>
    ((Io.machine interest).step s.io (.driver, .turn event)).map fun c ↦
      ⟨c, s.kernel.report event⟩
  | .exhaust k n =>
    match s.io.shared.held[n]? with
    | none => none
    | some captured =>
      ((Io.machine interest).step s.io (.thread k, .clearReadiness n)).map fun c ↦
        ⟨c, s.kernel.exhaust captured.event.ready⟩
  | .take d => some { s with kernel := s.kernel.take d }
  | .arrive d => some { s with kernel := s.kernel.arrive d }

/-- A socket that has just been registered: the selector reports what is ready by then. -/
def machine (interest : ℕ → Interest) : Machine State Action where
  init s := (Io.machine interest).init s.io ∧ ∀ d, s.kernel.ready d = true → s.kernel.edge d = true
  step := step interest

/-- The step of the slot in a step of the whole. -/
def Action.inner : Action → Option (Agent × Label)
  | .io i a => some (i, a)
  | .turn event => some (.driver, .turn event)
  | .exhaust k n => some (.thread k, .clearReadiness n)
  | .take _ | .arrive _ => none

/-- No clear goes through with an event that the driver's tick has lapped. -/
def NotLapped (s : State) (a : Action) : Prop := ∀ b ∈ a.inner, Io.NotLapped s.io b

instance (s : State) (a : Action) : Decidable (NotLapped s a) :=
  inferInstanceAs (Decidable (∀ b ∈ a.inner, Io.NotLapped s.io b))

/-! ## What a step can do -/

inductive Move (interest : ℕ → Interest) (s : State) : Action → State → Prop where
  | io {i : Agent} {a : Label} {c : Io.State} (ha : ofRuntime a = true)
      (h : (Io.machine interest).step s.io (i, a) = some c) :
      Move interest s (.io i a) ⟨c, s.kernel⟩
  | turn {event : Option Event} {c : Io.State}
      (h : (Io.machine interest).step s.io (.driver, .turn event) = some c) :
      Move interest s (.turn event) ⟨c, s.kernel.report event⟩
  | exhaust {k n : ℕ} {captured : Captured} {c : Io.State}
      (hheld : s.io.shared.held[n]? = some captured)
      (h : (Io.machine interest).step s.io (.thread k, .clearReadiness n) = some c) :
      Move interest s (.exhaust k n) ⟨c, s.kernel.exhaust captured.event.ready⟩
  | take {d : Direction} : Move interest s (.take d) ⟨s.io, s.kernel.take d⟩
  | arrive {d : Direction} : Move interest s (.arrive d) ⟨s.io, s.kernel.arrive d⟩

variable {interest : ℕ → Interest} {s t : State} {a : Action}

theorem move_of_step (h : step interest s a = some t) : Move interest s a t := by
  cases a with
  | io i a =>
    rw [step, Option.ite_none_right_eq_some, Option.map_eq_some_iff] at h
    obtain ⟨ha, c, hc, rfl⟩ := h
    exact .io ha hc
  | turn event =>
    rw [step, Option.map_eq_some_iff] at h
    obtain ⟨c, hc, rfl⟩ := h
    exact .turn hc
  | exhaust k n =>
    rw [step] at h
    split at h
    · cases h
    · rename_i captured hheld
      rw [Option.map_eq_some_iff] at h
      obtain ⟨c, hc, rfl⟩ := h
      exact .exhaust hheld hc
  | take | arrive =>
    cases h
    constructor

theorem exists_move {i : Agent} {b : Label} {c : Io.State}
    (h : (Io.machine interest).step s.io (i, b) = some c) :
    ∃ m p, Io.Move interest s.io.shared i (s.io.pc i) b m p ∧
      c = ⟨m, Function.update s.io.pc i p⟩ := by
  obtain ⟨m, p, hs, rfl⟩ := System.machine_step_eq_some.mp h
  have hstep : Io.step interest i s.io.shared (s.io.pc i) b = some (m, p) := hs
  exact ⟨m, p, Io.move_of_step hstep, rfl⟩

/-- The slot does what the slot of `Io/Model.lean` does. -/
def refines (interest : ℕ → Interest) :
    Machine.Refines (machine interest) (Io.machine interest) where
  state s := s.io
  act := Action.inner
  init _ h := h.1
  step s a t h := by
    cases move_of_step h with
    | io _ hc | turn hc | exhaust _ hc => exact hc
    | take | arrive => rfl

end ArcDischarge.Socket
