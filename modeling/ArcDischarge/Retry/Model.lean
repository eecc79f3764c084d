import ArcDischarge.Io.Model

/-!
# The retry loops

`Registration::poll_io` (`src/io/registration.rs`), `PollEvented::poll_read` and `poll_write`
(`src/io/poll_evented.rs`) and `TcpStream::poll_peek` (`src/net/tcp/stream.rs`) are one loop: poll
the readiness of a direction, try the operation, and where it reports `WouldBlock` clear the
readiness and start over. Here any number of such calls run on one `ScheduledIo`, among all that
goes on there according to `Io/Model.lean`: driver turns, futures, and threads that poll, capture
and clear on their own account. The polls and clears of a call are the `poll_readiness` and
`clear_readiness` of that file, step by step.

The environment decides what the operation returns. The event of a call belongs to the call, so it
never is among those that somebody else can clear. A call borrows its registration, so its
`slab.get(key).unwrap()` always finds the slot (`Slab/Occupancy.lean`).

The fields `since`, `did` and `steps` of a call, and the slot in `Return.pending`, are history.
-/

namespace ArcDischarge.Retry

open Io (Agent Captured Direction Interest Shared Waker)

variable {ε R : Type*}

/-- A retry loop around an operation with results in `R`. -/
structure Loop (R : Type*) where
  direction : Direction
  /-- The results before whose return the readiness is cleared once more. -/
  clearsAfter : R → Bool

def pollIo (direction : Direction) : Loop R := ⟨direction, fun _ ↦ false⟩

def pollRead : Loop ℕ := ⟨.read, fun _ ↦ false⟩

/-- A write of a part of the buffer shows that the socket buffer is full, except on Windows. -/
def pollWrite (windows : Bool) (len : ℕ) : Loop ℕ :=
  ⟨.write, fun n ↦ decide (n > 0) && (!windows && decide (n < len))⟩

def pollPeek : Loop ℕ := ⟨.read, fun _ ↦ false⟩

/-- What a call has done. -/
inductive Did (ε R : Type*) where
  | stored (waker : Waker)
  | called (result : Except ε R)
  | cleared

structure Call (ε R : Type*) where
  loop : Loop R
  waker : Waker
  /-- The number of exchanges on the word before the call. -/
  since : ℕ
  did : List (Did ε R)
  /-- The number of steps of the call. -/
  steps : ℕ

inductive Phase (R : Type*) where
  /-- Within `poll_readiness`. -/
  | polling (p : Io.Pc)
  /-- About to try the operation. -/
  | trying (captured : Captured)
  /-- Within `clear_readiness`, after which the call returns the result if it has one. -/
  | clearing (p : Io.Pc) (result : Option R)

inductive Return (ε R : Type*) where
  /-- `Poll::Pending`, with what the slot of the direction has then. -/
  | pending (slot : Option Waker)
  | ready (result : Except ε R)

inductive Pc (ε R : Type*) where
  | io (p : Io.Pc)
  | call (call : Call ε R) (phase : Phase R)
  | returned (call : Call ε R) (ret : Return ε R)

inductive Label (ε R : Type*) where
  | io (a : Io.Label)
  | call (loop : Loop R) (waker : Waker)
  | step
  /-- The operation is called and returns `result`. -/
  | result (result : Except ε R)

/-! ## The steps -/

/-- The call after one more step, in which it has done this. -/
def Call.after (call : Call ε R) (did : List (Did ε R)) : Call ε R :=
  { call with did := call.did ++ did, steps := call.steps + 1 }

/-- What a step of `poll_readiness` does for the history of the call. -/
def stored : Io.Pc → List (Did ε R)
  | .store _ waker => [.stored waker]
  | _ => []

/-- One step within `poll_readiness`, and what `poll_ready` makes of the event it returns. -/
def pollStep (gone : ε) (k : ℕ) (m : Shared) (call : Call ε R) (p : Io.Pc) :
    Option (Shared × Pc ε R) :=
  match Io.threadStep k m p .step with
  | none => none
  | some (m', .idle) =>
    let next :=
      match m'.held.drop m.held.length with
      | [] => .returned (call.after []) (.pending (m'.slot call.loop.direction))
      | captured :: _ =>
        match captured.event.orGone gone with
        | .error e => .returned (call.after []) (.ready (.error e))
        | .ok _ => .call (call.after []) (.trying captured)
    some ({ m' with held := m.held }, next)
  | some (m', p') => some (m', .call (call.after (stored p)) (.polling p'))

/-- The operation has returned. -/
def tried (wouldBlock : ε → Bool) (call : Call ε R) (captured : Captured) : Except ε R → Pc ε R
  | .ok ret =>
    if call.loop.clearsAfter ret then .call call (.clearing (.clearLoad captured) (some ret))
    else .returned call (.ready (.ok ret))
  | .error e =>
    if wouldBlock e then .call call (.clearing (.clearLoad captured) none)
    else .returned call (.ready (.error e))

/-- `clear_readiness` has returned. -/
def cleared (call : Call ε R) : Option R → Pc ε R
  | none => .call call (.polling (.callLoad call.loop.direction call.waker))
  | some ret => .returned call (.ready (.ok ret))

/-- One step within `clear_readiness`. -/
def clearStep (k : ℕ) (m : Shared) (call : Call ε R) (p : Io.Pc) (result : Option R) :
    Option (Shared × Pc ε R) :=
  match Io.threadStep k m p .step with
  | none => none
  | some (m', .idle) => some (m', cleared (call.after [.cleared]) result)
  | some (m', p') => some (m', .call (call.after []) (.clearing p' result))

/-- One step of an agent. An error of the operation is a `WouldBlock` if `wouldBlock` says so. -/
def step (interest : ℕ → Interest) (wouldBlock : ε → Bool) (gone : ε) :
    Agent → Shared → Pc ε R → Label ε R → Option (Shared × Pc ε R)
  | i, m, .io p, .io a => (Io.step interest i m p a).map fun r ↦ (r.1, .io r.2)
  | .thread _, m, .io .idle, .call loop waker =>
    some (m, .call ⟨loop, waker, m.log.length, [], 0⟩ (.polling (.callLoad loop.direction waker)))
  | .thread k, m, .call call (.polling p), .step => pollStep gone k m call p
  | .thread _, m, .call call (.trying captured), .result r =>
    some (m, tried wouldBlock (call.after [.called r]) captured r)
  | .thread k, m, .call call (.clearing p result), .step => clearStep k m call p result
  | .thread _, m, .returned _ _, .step => some (m, .io .idle)
  | _, _, _, _ => none

abbrev State (ε R : Type*) := Config Agent Shared (Pc ε R)

/-- A slot as in `Io/Model.lean`, with no calls yet. -/
def State.ofIo (c : Io.State) : State ε R := ⟨c.shared, fun i ↦ .io (c.pc i)⟩

def system (interest : ℕ → Interest) (wouldBlock : ε → Bool) (gone : ε) :
    System Agent Shared (Pc ε R) (Label ε R) where
  init c := ∃ s, (Io.system interest).init s ∧ c = State.ofIo s
  step := step interest wouldBlock gone

abbrev machine (interest : ℕ → Interest) (wouldBlock : ε → Bool) (gone : ε) :
    Machine (State ε R) (Agent × Label ε R) :=
  (system interest wouldBlock gone).machine

theorem reachableUnder_new {interest : ℕ → Interest} {wouldBlock : ε → Bool} {gone : ε}
    {G : State ε R → Agent × Label ε R → Prop} (slot : Direction → Option Waker) (turn : ℕ) :
    (machine interest wouldBlock gone).ReachableUnder G (State.ofIo (.new 0#64 slot turn)) :=
  .init ⟨_, ⟨_, _, _, Or.inl rfl, rfl⟩, rfl⟩

/-! ## The operation and the call -/

/-- The direction in which a call is about to try its operation. -/
def Pc.trying? : Pc ε R → Option Direction
  | .call c (.trying _) => some c.loop.direction
  | _ => none

/-- The closed bit of a direction. -/
def isClosed (ready : Io.Ready) : Direction → Bool
  | .read => ready.isReadClosed
  | .write => ready.isWriteClosed

/-- What is assumed of the operating system: an operation in a direction whose closed bit is set
does not report `WouldBlock`. -/
def FinalWhenClosed (wouldBlock : ε → Bool) (c : State ε R) : Agent × Label ε R → Prop
  | (i, .result (.error e)) =>
    ∀ d ∈ (c.pc i).trying?, isClosed c.shared.word.readiness d = true → wouldBlock e = false
  | _ => True

instance (wouldBlock : ε → Bool) (c : State ε R) :
    ∀ a, Decidable (FinalWhenClosed wouldBlock c a)
  | (i, .result (.error e)) => inferInstanceAs (Decidable (∀ d ∈ (c.pc i).trying?,
      isClosed c.shared.word.readiness d = true → wouldBlock e = false))
  | (_, .result (.ok _)) | (_, .io _) | (_, .call _ _) | (_, .step) =>
    inferInstanceAs (Decidable True)

def Did.result? : Did ε R → Option (Except ε R)
  | .called result => some result
  | _ => none

/-- What the calls of the operation have returned. -/
def Call.results (call : Call ε R) : List (Except ε R) := call.did.filterMap Did.result?

/-- The number of driver events applied to the slot after the first `since` exchanges. -/
def eventsSince (since : ℕ) (log : List Io.Entry) : ℕ := (Io.turns (log.drop since)).length

/-- The next step of a call that has not returned, where the operation would return `r`. -/
def Pc.next (r : Except ε R) : Pc ε R → Option (Label ε R)
  | .call _ (.trying _) => some (.result r)
  | .call _ _ => some .step
  | _ => none

/-- Thread `k` runs alone until its call returns, at most `fuel` steps. With `n` more steps left the
operation returns `results n`. -/
def alone (interest : ℕ → Interest) (wouldBlock : ε → Bool) (gone : ε) (k : ℕ)
    (results : ℕ → Except ε R) : ℕ → State ε R → Option (State ε R)
  | 0, c => some c
  | n + 1, c =>
    match (c.pc (.thread k)).next (results n) with
    | none => some c
    | some a => ((machine interest wouldBlock gone).step c (.thread k, a)).bind
        (alone interest wouldBlock gone k results n)

end ArcDischarge.Retry
