import ArcDischarge.Io.Word
import ArcDischarge.Machine.System

/-!
# One `ScheduledIo`

A slot of the I/O driver's slab between two `Clear`s (`src/io/mod.rs`): the driver applies the
events of its turns and wakes, any number of `Readiness` futures are polled and dropped, and any
number of threads call `poll_readiness`, `ready_event` and `clear_readiness`. Each load and each
`compare_exchange` of the word, each acquisition and release of the `waiters` mutex, each node that
`wake` looks at and each waker it wakes is one step.

The environment decides which events a turn delivers to the slot, who polls with which waker and
when a future is dropped. A `ReadyEvent` goes to `held` when it is returned, and whoever clears it
takes it from there: the type is not `Clone`.

Of `pin_list` the model has what the source relies on: a node is new, linked, or removed; a list
hands out the protected data of a linked node under its lock; `remove_current` moves the cursor on,
which nothing else does, so that the cursor of `wake` is always at the front; the destructor of a
node has no access to the list, and aborts the process unless the node is new. `Readiness` has no
`Drop` of its own that would see to its node first. Wakers are compared by `will_wake`.

The second half of the fields of `Shared` is history: no step reads it.
-/

namespace ArcDischarge.Io

abbrev Waker := ℕ

inductive Agent where
  | driver
  | future (k : ℕ)
  | thread (k : ℕ)
  deriving DecidableEq, Repr

/-- `pin_list::Node`, with the waker it protects. -/
inductive Node where
  | new
  | linked (waker : Waker)
  | removed
  deriving DecidableEq, Repr

/-- A `ReadyEvent`, with the number of exchanges on the word before the load it comes from. -/
structure Captured where
  event : ReadyEvent
  since : ℕ
  deriving DecidableEq

/-- A waker that a waiter has stored, with the number of wakes up to then and the number of
exchanges up to the waiter's re-check under the lock. -/
structure Stored where
  waker : Waker
  wakes : ℕ
  recheck : ℕ
  deriving DecidableEq, Repr

/-- The last `poll_readiness` of a direction to pass through the locked part. It is `pending` once
its re-check has found nothing. -/
structure Caller where
  thread : ℕ
  stored : Stored
  pending : Bool
  deriving DecidableEq, Repr

inductive Poll where
  | pending
  | ready
  deriving DecidableEq, Repr

structure Shared where
  /-- The `AtomicUsize` `readiness`. -/
  word : Word
  /-- The holder of the mutex `waiters`. -/
  lock : Option Agent
  /-- The futures whose nodes are linked, the front first. -/
  list : List ℕ
  node : ℕ → Node
  /-- The fields `reader` and `writer`. -/
  slot : Direction → Option Waker
  /-- The driver's tick. -/
  tick : BitVec 8
  /-- The array of `wake`. -/
  wakers : List Waker
  held : List Captured
  /-- The exchanges on the word. -/
  log : List Entry
  /-- The number of turns of the driver, of which `tick` is the last byte. -/
  turn : ℕ
  /-- The wakers that `wake` has woken. -/
  woken : List Waker
  /-- The events whose `wake` has looked at the slots are those before this entry of the log. -/
  slotsDone : ℕ
  /-- The events whose `wake` has gone through the list are those before this entry. -/
  listDone : ℕ
  /-- The events whose `wake` has returned are those before this entry. -/
  returned : ℕ
  stored : ℕ → Stored
  caller : Direction → Option Caller
  /-- What the polls of each future have returned. -/
  results : ℕ → List Poll

/-- The next step of an agent. -/
inductive Pc where
  | idle
  /-- `set_readiness(Tick::Set(..), |curr| curr | ready)`: the load. -/
  | setLoad (ready : Ready)
  | setExchange (ready : Ready) (current : Word)
  /-- `wake(ready)` for the event in entry `event` of the log. -/
  | wakeLock (event : ℕ) (ready : Ready)
  | takeSlots (event : ℕ) (ready : Ready)
  | scan (event : ℕ) (ready : Ready)
  /-- The array is full: wake, then lock again. -/
  | drain (event : ℕ) (ready : Ready)
  /-- The list is done: wake, then return. -/
  | finish (event : ℕ)
  /-- A future between polls, in `State::Init`. -/
  | init
  | waiting
  | done
  | dropped
  /-- The destructor of the node has called `abort`. The future does not get any further; what the
  other threads still do until the process is gone is left open. -/
  | aborted
  | initLoad (waker : Waker)
  | initLock (waker : Waker)
  | recheck (waker : Waker)
  | register (waker : Waker) (recheck : ℕ)
  | registered (waker : Waker)
  /-- `State::Waiting`: `self.waiters.lock()`. -/
  | waitLock (waker : Waker)
  | inspect (waker : Waker)
  | unlockPending
  | unlockReady (captured : Captured)
  | unlockDone
  | doneLoad
  /-- `poll_readiness`: the first load. -/
  | callLoad (direction : Direction) (waker : Waker)
  | callLock (direction : Direction) (waker : Waker)
  | store (direction : Direction) (waker : Waker)
  | callRecheck (direction : Direction)
  | callUnlock (captured : Option Captured)
  | eventLoad (interest : Interest)
  /-- `clear_readiness`: the load. -/
  | clearLoad (captured : Captured)
  | clearExchange (captured : Captured) (current : Word)
  deriving DecidableEq

inductive Label where
  | step
  /-- `poll_timeout`, with the event for the slot if there is one. -/
  | turn (event : Option Event)
  | poll (waker : Waker)
  | drop
  | pollReadiness (direction : Direction) (waker : Waker)
  | readyEvent (interest : Interest)
  /-- `clear_readiness` of the `n`-th event that is held. -/
  | clearReadiness (n : ℕ)
  deriving DecidableEq

/-! ## The steps -/

namespace Shared

/-- The `ReadyEvent` made of the word as it is, with this readiness. -/
def capture (m : Shared) (ready : Ready) : Captured :=
  ⟨⟨m.word.tick, ready, m.word.isShutdown⟩, m.log.length⟩

/-- Future `k` returns `Poll::Ready`. -/
def returnReady (m : Shared) (k : ℕ) (captured : Captured) : Shared :=
  { m with held := m.held ++ [captured]
           results := Function.update m.results k (m.results k ++ [.ready]) }

/-- What the re-check of a future under the lock sees. -/
def recheckReady (m : Shared) (interest : Interest) : Ready :=
  (if m.word.isShutdown then .ALL else m.word.readiness).intersection interest

/-- Wake the first waker of the array, of which `rest` is the rest. -/
def wakeOne (m : Shared) (waker : Waker) (rest : List Waker) : Shared :=
  { m with wakers := rest, woken := m.woken ++ [waker] }

/-- The slots that an event takes its wakers from. -/
def takenWakers (m : Shared) (ready : Ready) : List Waker :=
  (if ready.isReadable then (m.slot .read).toList else []) ++
    if ready.isWritable then (m.slot .write).toList else []

end Shared

/-- `ArrayVec::<Waker, 32>`. -/
def capacity : ℕ := 32

section

variable (interest : ℕ → Interest)

/-- One step of the driver: `poll_timeout` as far as it concerns the slot, with `wake`. -/
def driverStep (m : Shared) : Pc → Label → Option (Shared × Pc)
  | .idle, .turn event =>
    let m' := { m with tick := m.tick + 1#8, turn := m.turn + 1 }
    match event with
    | none => some (m', .idle)
    | some event => some (m', .setLoad (.fromMio event))
  | .setLoad ready, .step => some (m, .setExchange ready m.word)
  | .setExchange ready current, .step =>
    match pass (.set m.tick) (· ||| ready) current with
    | some (some next) =>
      if m.word = current then
        some ({ m with word := next, log := m.log ++ [.set m.turn ready] },
          .wakeLock m.log.length ready)
      else some (m, .setExchange ready m.word)
    | _ => none
  | .wakeLock event ready, .step =>
    match m.lock with
    | some _ => none
    | none => some ({ m with lock := some .driver, wakers := [] }, .takeSlots event ready)
  | .takeSlots event ready, .step =>
    some ({ m with wakers := m.takenWakers ready
                   slot := fun d ↦ if d.wokenBy ready then none else m.slot d
                   slotsDone := event + 1 }, .scan event ready)
  | .scan event ready, .step =>
    if m.wakers.length = capacity then some ({ m with lock := none }, .drain event ready)
    else
      match m.list with
      | [] => some ({ m with lock := none, listDone := event + 1 }, .finish event)
      | k :: rest =>
        if ready.satisfies (interest k) then
          match m.node k with
          | .linked waker =>
            some ({ m with list := rest
                           node := Function.update m.node k .removed
                           wakers := m.wakers ++ [waker] }, .scan event ready)
          | _ => none
        -- the branch `Some(false) => {}`: the cursor stays
        else some (m, .scan event ready)
  | .drain event ready, .step =>
    match m.wakers with
    | waker :: rest => some (m.wakeOne waker rest, .drain event ready)
    | [] =>
      match m.lock with
      | some _ => none
      | none => some ({ m with lock := some .driver }, .scan event ready)
  | .finish event, .step =>
    match m.wakers with
    | waker :: rest => some (m.wakeOne waker rest, .finish event)
    | [] => some ({ m with returned := event + 1 }, .idle)
  | _, _ => none

/-- The drop of future `k`, which drops its node. -/
def dropNode (m : Shared) (k : ℕ) : Pc :=
  match m.node k with
  | .new => .dropped
  | .linked _ | .removed => .aborted

/-- One step of future `k`: `Readiness::poll`, or its drop. -/
def futureStep (k : ℕ) (m : Shared) : Pc → Label → Option (Shared × Pc)
  | .init, .poll waker => some (m, .initLoad waker)
  | .waiting, .poll waker => some (m, .waitLock waker)
  | .done, .poll _ => some (m, .doneLoad)
  | .init, .drop | .waiting, .drop | .done, .drop => some (m, dropNode m k)
  | .initLoad waker, .step =>
    let ready := m.word.readiness.intersection (interest k)
    if !ready.isEmpty || m.word.isShutdown then
      some (m.returnReady k (m.capture ready), .done)
    else some (m, .initLock waker)
  | .initLock waker, .step =>
    match m.lock with
    | some _ => none
    | none => some ({ m with lock := some (.future k) }, .recheck waker)
  | .recheck waker, .step =>
    let ready := m.recheckReady (interest k)
    if !ready.isEmpty || m.word.isShutdown then some (m, .unlockReady (m.capture ready))
    else some (m, .register waker m.log.length)
  | .register waker recheck, .step =>
    match m.node k with
    | .new =>
      some ({ m with list := k :: m.list
                     node := Function.update m.node k (.linked waker)
                     stored := Function.update m.stored k ⟨waker, m.woken.length, recheck⟩ },
        .registered waker)
    | _ => none
  | .registered waker, .step => some ({ m with lock := none }, .waitLock waker)
  | .waitLock waker, .step =>
    match m.lock with
    | some _ => none
    | none => some ({ m with lock := some (.future k) }, .inspect waker)
  | .inspect waker, .step =>
    match m.node k with
    | .linked _ =>
      some ({ m with node := Function.update m.node k (.linked waker)
                     stored := Function.update m.stored k
                       ⟨waker, m.woken.length, (m.stored k).recheck⟩ }, .unlockPending)
    | .removed => some ({ m with node := Function.update m.node k .new }, .unlockDone)
    | .new => some (m, .unlockDone)
  | .unlockPending, .step =>
    some ({ m with lock := none
                   results := Function.update m.results k (m.results k ++ [.pending]) }, .waiting)
  | .unlockReady captured, .step =>
    some ({ m with lock := none }.returnReady k captured, .done)
  | .unlockDone, .step => some ({ m with lock := none }, .doneLoad)
  | .doneLoad, .step =>
    some (m.returnReady k (m.capture (m.word.readiness.intersection (interest k))), .done)
  | _, _ => none

end

/-- One step of thread `k`: a call of `poll_readiness`, `ready_event` or `clear_readiness`. -/
def threadStep (k : ℕ) (m : Shared) : Pc → Label → Option (Shared × Pc)
  | .idle, .pollReadiness d waker => some (m, .callLoad d waker)
  | .callLoad d waker, .step =>
    let ready := d.mask &&& m.word.readiness
    if ready.isEmpty && !m.word.isShutdown then some (m, .callLock d waker)
    else some ({ m with held := m.held ++ [m.capture ready] }, .idle)
  | .callLock d waker, .step =>
    match m.lock with
    | some _ => none
    | none => some ({ m with lock := some (.thread k) }, .store d waker)
  | .store d waker, .step =>
    let caller := ⟨k, ⟨waker, m.woken.length, 0⟩, false⟩
    some ({ m with slot := if m.slot d = some waker then m.slot
                     else Function.update m.slot d (some waker)
                   caller := Function.update m.caller d (some caller) }, .callRecheck d)
  | .callRecheck d, .step =>
    let ready := d.mask &&& m.word.readiness
    if m.word.isShutdown then some (m, .callUnlock (some (m.capture d.mask)))
    else if ready.isEmpty then
      let caller := (m.caller d).map fun c ↦
        { c with stored := { c.stored with recheck := m.log.length }, pending := true }
      some ({ m with caller := Function.update m.caller d caller }, .callUnlock none)
    else some (m, .callUnlock (some (m.capture ready)))
  | .callUnlock captured, .step =>
    some ({ m with lock := none, held := m.held ++ captured.toList }, .idle)
  | .idle, .readyEvent i => some (m, .eventLoad i)
  | .eventLoad i, .step =>
    some ({ m with held := m.held ++ [m.capture (mask i &&& m.word.readiness)] }, .idle)
  | .idle, .clearReadiness n =>
    match m.held[n]? with
    | none => none
    | some captured => some ({ m with held := m.held.eraseIdx n }, .clearLoad captured)
  | .clearLoad captured, .step => some (m, .clearExchange captured m.word)
  | .clearExchange captured current, .step =>
    let removed := captured.event.maskNoClosed
    match pass (.clear captured.event.tick) (· - removed) current with
    | none => none
    | some none => some (m, .idle)
    | some (some next) =>
      if m.word = current then
        some ({ m with word := next, log := m.log ++ [.clear removed] }, .idle)
      else some (m, .clearExchange captured m.word)
  | _, _ => none

def step (interest : ℕ → Interest) : Agent → Shared → Pc → Label → Option (Shared × Pc)
  | .driver => driverStep interest
  | .future k => futureStep interest k
  | .thread k => threadStep k

abbrev State := Config Agent Shared Pc

/-- A slot whose word is `word` and whose direction slots still hold `slot`, before turn `turn` of
the driver. -/
def State.new (word : Word) (slot : Direction → Option Waker) (turn : ℕ) : State where
  shared :=
    { word, slot, turn
      lock := none
      list := []
      node := fun _ ↦ .new
      tick := BitVec.ofNat 8 turn
      wakers := []
      held := []
      log := []
      woken := []
      slotsDone := 0
      listDone := 0
      returned := 0
      stored := fun _ ↦ ⟨0, 0, 0⟩
      caller := fun _ ↦ none
      results := fun _ ↦ [] }
  pc
    | .future _ => .init
    | .driver | .thread _ => .idle

/-- A slot just created, or just cleared for its next use, with any number of futures and threads.
Future `k` has interest `interest k`. -/
def system (interest : ℕ → Interest) : System Agent Shared Pc Label where
  init c := ∃ word slot turn, (word = 0#64 ∨ ∃ w : Word, w.cleared = some word) ∧
    c = State.new word slot turn
  step := step interest

abbrev machine (interest : ℕ → Interest) : Machine State (Agent × Label) :=
  (system interest).machine

theorem reachableUnder_new {interest : ℕ → Interest} {G : State → Agent × Label → Prop}
    (slot : Direction → Option Waker) (turn : ℕ) :
    (machine interest).ReachableUnder G (.new 0#64 slot turn) :=
  .init ⟨_, _, _, Or.inl rfl, rfl⟩

/-! ## Runs of one agent -/

def readable : Event := ⟨true, false, false, false⟩

/-- A turn of the driver that delivers `event`, up to the return of `wake` for a list of `nodes`
nodes that the event satisfies, with `slots` wakers in the slots it takes. -/
def eventTurn (event : Event) (nodes slots : ℕ) : List (Agent × Label) :=
  (.driver, .turn (some event)) :: List.replicate (6 + 2 * nodes + slots) (.driver, .step)

/-- A call of `ready_event`. -/
def captureRun (k : ℕ) (interest : Interest) : List (Agent × Label) :=
  [(.thread k, .readyEvent interest), (.thread k, .step)]

/-- A call of `clear_readiness` up to its exchange. -/
def clearRun (k n : ℕ) : List (Agent × Label) :=
  [(.thread k, .clearReadiness n), (.thread k, .step)]

end ArcDischarge.Io
