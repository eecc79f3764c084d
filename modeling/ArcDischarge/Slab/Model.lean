import ArcDischarge.Io.Moves

/-!
# The slab of the I/O driver

Registrations come and go, and the slots of the slab are used again (`Handle::add_source` in
`src/io/mod.rs`, `src/io/registration.rs`). Each slot holds a `ScheduledIo`, which is the machine of
`Io/Model.lean`; this one runs any number of them side by side and adds what happens between two
uses of a slot.

Of `sharded_slab::Pool` this is assumed: `create` occupies a free slot or finds the slab full, a
slot stays occupied until `clear` is called for its key, `get` finds a slot by the key of its
occupant only, and `Clear::clear` runs when a slot is cleared, as soon as nobody has a reference to
it. The token of an event is the key of the slot that it was registered with.

A call on a registration and a `Readiness` future borrow it, so it is dropped when these are gone:
the calls have returned, and the futures are dropped, or leaked, which leaves their nodes where they
are. Only the driver may still have its reference then. A future whose drop aborts the process does
not give its borrow back.
-/

namespace ArcDischarge.Slab

open Io (Interest Ready Word Waker Event)

/-- A key: the slot, and which of its uses. -/
structure Key where
  index : ℕ
  occupancy : ℕ
  deriving DecidableEq, Repr

inductive Phase where
  | free
  | present
  /-- Cleared, with a reference of the driver outstanding. -/
  | marked
  deriving DecidableEq, Repr

inductive Agent where
  /-- The driver, a future or a thread that uses a registration. -/
  | io (i : Io.Agent)
  /-- Who makes and drops registrations. -/
  | source (k : ℕ)
  deriving DecidableEq, Repr

structure Shared where
  /-- The value in each slot, which a slot keeps from one use to the next. -/
  entry : ℕ → Io.Shared
  phase : ℕ → Phase
  /-- How often each slot has been occupied. -/
  occupancy : ℕ → ℕ
  /-- The keys of the `Registration`s that are alive. -/
  registrations : List Key
  /-- Who borrows the registration in a slot. -/
  borrows : ℕ → List Io.Agent
  /-- The slot that the driver has a reference to. -/
  driverAt : Option ℕ
  tick : BitVec 8
  /-- The number of turns of the driver, of which `tick` is the last byte. -/
  turn : ℕ
  /-- The source that each slot was last occupied for. -/
  maker : ℕ → Option ℕ
  /-- What the driver has delivered for the last registration of each slot. -/
  delivered : ℕ → List Ready
  /-- The wakers that polls have stored through the last registration of each slot. -/
  stored : ℕ → List Waker

inductive Pc where
  | idle
  /-- `add_source`: the slot is occupied, and the source is about to be registered. -/
  | entry (key : Key)
  /-- A call on the slot of a key; a future stays here between its polls. -/
  | call (key : Key) (p : Io.Pc)
  /-- A future that is forgotten between two polls. -/
  | leaked (key : Key) (p : Io.Pc)
  /-- A `slab.get(key).unwrap()` or an assertion of `pack` has failed. -/
  | panicked
  deriving DecidableEq

inductive Label where
  /-- `slab.create()`, with the slot that it finds. -/
  | create (slot : Option ℕ)
  /-- `registry.register(..)`, with its success. -/
  | register (ok : Bool)
  /-- The drop of a `Registration`. -/
  | drop (key : Key)
  /-- `poll_timeout`: a mio poll. -/
  | turn
  /-- The next event of the turn. -/
  | event (key : Key) (event : Event)
  /-- `Registration::readiness`. -/
  | readiness (key : Key)
  /-- A call through a registration. -/
  | call (key : Key) (a : Io.Label)
  /-- A step of a call, or of a future. -/
  | io (a : Io.Label)
  /-- `mem::forget` of a future. -/
  | leak
  deriving DecidableEq

/-! ## The steps -/

/-- A new use of a slot: the history of its registration begins, and `wake` has no array yet. -/
def fresh (e : Io.Shared) : Io.Shared :=
  { e with wakers := [], held := [], log := [], woken := [], slotsDone := 0, listDone := 0
           returned := 0 }

/-- The waker that a step of an agent stores in the waiters. -/
def storing (e : Io.Shared) : Io.Agent → Io.Pc → Option Waker
  | .thread _, .store _ waker => some waker
  | .future _, .register waker _ => some waker
  | .future k, .inspect waker =>
    match e.node k with
    | .linked _ => some waker
    | .new | .removed => none
  | _, _ => none

namespace Shared

/-- The key is that of the occupant of its slot. -/
def Occupied (m : Shared) (key : Key) : Prop :=
  m.phase key.index = .present ∧ m.occupancy key.index = key.occupancy

instance (m : Shared) (key : Key) : Decidable (m.Occupied key) :=
  inferInstanceAs (Decidable (_ ∧ _))

def create (m : Shared) (k j : ℕ) : Shared :=
  { m with entry := Function.update m.entry j (fresh (m.entry j))
           phase := Function.update m.phase j .present
           occupancy := Function.update m.occupancy j (m.occupancy j + 1)
           maker := Function.update m.maker j (some k)
           delivered := Function.update m.delivered j []
           stored := Function.update m.stored j [] }

/-- `Clear::clear` for a slot that nobody has a reference to. -/
def clear (m : Shared) (j : ℕ) : Option Shared :=
  (m.entry j).word.cleared.map fun word ↦
    { m with entry := Function.update m.entry j { m.entry j with word }
             phase := Function.update m.phase j .free }

/-- `slab.clear(key)` in the drop of a `Registration`. -/
def drop (m : Shared) (key : Key) : Option Shared :=
  let m := { m with registrations := m.registrations.erase key }
  if m.driverAt = some key.index then
    some { m with phase := Function.update m.phase key.index .marked }
  else m.clear key.index

/-- The driver drops its reference. -/
def release (m : Shared) (j : ℕ) : Option Shared :=
  let m := { m with driverAt := none }
  if m.phase j = .marked then m.clear j else some m

def borrow (m : Shared) (i : Io.Agent) (j : ℕ) : Shared :=
  { m with borrows := Function.update m.borrows j (i :: m.borrows j) }

def unborrow (m : Shared) (i : Io.Agent) (j : ℕ) : Shared :=
  { m with borrows := Function.update m.borrows j ((m.borrows j).erase i) }

/-- The driver finds the slot of an event. -/
def deliver (m : Shared) (j : ℕ) (ready : Ready) : Shared :=
  { m with entry := Function.update m.entry j { m.entry j with tick := m.tick, turn := m.turn }
           driverAt := some j
           delivered := Function.update m.delivered j (m.delivered j ++ [ready]) }

/-- An agent at `p` takes the `ScheduledIo` in slot `j` to `e`. -/
def setEntry (m : Shared) (i : Io.Agent) (j : ℕ) (p : Io.Pc) (e : Io.Shared) : Shared :=
  { m with entry := Function.update m.entry j e
           stored := Function.update m.stored j
             (m.stored j ++ (storing (m.entry j) i p).toList) }

/-- A step of an agent on the `ScheduledIo` in slot `j`. -/
def onEntry (interest : ℕ → Interest) (m : Shared) (i : Io.Agent) (j : ℕ) (p : Io.Pc)
    (a : Io.Label) : Option (Shared × Io.Pc) :=
  (Io.step interest i (m.entry j) p a).map fun r ↦ (m.setEntry i j p r.1, r.2)

end Shared

/-- A call that returns, unless an assertion has failed. -/
def orPanic (m : Shared) : Option Shared → Shared × Pc
  | some m' => (m', .idle)
  | none => (m, .panicked)

/-- `add_source`, and the drop of a `Registration`. -/
def sourceStep (k : ℕ) (m : Shared) : Pc → Label → Option (Shared × Pc)
  | .idle, .create none => some (m, .idle)
  | .idle, .create (some j) =>
    if m.phase j = .free then some (m.create k j, .entry ⟨j, m.occupancy j + 1⟩) else none
  | .entry key, .register true =>
    some ({ m with registrations := key :: m.registrations }, .idle)
  -- the reference is dropped, which does not free the slot
  | .entry _, .register false => some (m, .idle)
  | .idle, .drop key =>
    if key ∈ m.registrations ∧ m.borrows key.index = [] then some (orPanic m (m.drop key)) else none
  | _, _ => none

section

variable (interest : ℕ → Interest)

/-- `poll_timeout`. -/
def driverStep (m : Shared) : Pc → Label → Option (Shared × Pc)
  | .idle, .turn => some ({ m with tick := m.tick + 1#8, turn := m.turn + 1 }, .idle)
  | .idle, .event key event =>
    if m.Occupied key then
      some (m.deliver key.index (.fromMio event), .call key (.setLoad (.fromMio event)))
    else some (m, .idle)
  | .call key p, .io .step =>
    (m.onEntry interest .driver key.index p .step).map fun r ↦
      if r.2 = .idle then orPanic r.1 (r.1.release key.index) else (r.1, .call key r.2)
  | _, _ => none

/-- A thread calls a method of a registration, and runs it. -/
def threadStep (k : ℕ) (m : Shared) : Pc → Label → Option (Shared × Pc)
  | .idle, .call key a =>
    if key ∈ m.registrations then
      (m.onEntry interest (.thread k) key.index .idle a).map fun r ↦
        if m.Occupied key then (r.1.borrow (.thread k) key.index, .call key r.2) else (m, .panicked)
    else none
  | .call key p, .io .step =>
    (m.onEntry interest (.thread k) key.index p .step).map fun r ↦
      if r.2 = .idle then (r.1.unborrow (.thread k) key.index, .idle) else (r.1, .call key r.2)
  | _, _ => none

/-- A `Readiness` future is made, polled and dropped, or leaked. Every poll gets the slot anew. -/
def futureStep (k : ℕ) (m : Shared) : Pc → Label → Option (Shared × Pc)
  | .idle, .readiness key =>
    if key ∈ m.registrations then some (m.borrow (.future k) key.index, .call key .init) else none
  | .call key p, .io (.poll waker) =>
    (m.onEntry interest (.future k) key.index p (.poll waker)).map fun r ↦
      if m.Occupied key then (r.1, .call key r.2) else (m, .panicked)
  | .call key p, .io .step =>
    (m.onEntry interest (.future k) key.index p .step).map fun r ↦ (r.1, .call key r.2)
  | .call key p, .io .drop =>
    (m.onEntry interest (.future k) key.index p .drop).map fun r ↦
      if r.2 = .dropped then (r.1.unborrow (.future k) key.index, .call key .dropped)
      else (r.1, .call key r.2)
  | .call key p, .leak =>
    if p = .init ∨ p = .waiting ∨ p = .done then
      some (m.unborrow (.future k) key.index, .leaked key p)
    else none
  | _, _ => none

def step : Agent → Shared → Pc → Label → Option (Shared × Pc)
  | .io .driver => driverStep interest
  | .io (.thread k) => threadStep interest k
  | .io (.future k) => futureStep interest k
  | .source k => sourceStep k

end

abbrev State := Config Agent Shared Pc

/-- An empty slab, all of whose slots have the default value. -/
def State.new : State where
  shared :=
    { entry := fun _ ↦ (Io.State.new 0#64 (fun _ ↦ none) 0).shared
      phase := fun _ ↦ .free
      occupancy := fun _ ↦ 0
      registrations := []
      borrows := fun _ ↦ []
      driverAt := none
      tick := 0#8
      turn := 0
      maker := fun _ ↦ none
      delivered := fun _ ↦ []
      stored := fun _ ↦ [] }
  pc := fun _ ↦ .idle

/-- A slab with its driver and any number of sources, threads and futures. Future `k` has interest
`interest k`. -/
def system (interest : ℕ → Interest) : System Agent Shared Pc Label where
  init c := c = State.new
  step := step interest

abbrev machine (interest : ℕ → Interest) : Machine State (Agent × Label) :=
  (system interest).machine

end ArcDischarge.Slab
