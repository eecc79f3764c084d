import ArcDischarge.Machine.Basic
import Mathlib.Data.List.Basic

/-!
# The queue of parked workers

`src/sync_slot_map.rs` is the 1024cores intrusive MPSC queue with array indices for pointers: node
`i` is worker `i`, node `cap` is the stub, `slots[i]` is the link of node `i`, and the value
`slots.len() = cap + 1` stands for a null link. Producers push at `head`; the holder of the
`exclusive` lock pops at `tail` and puts the stub back when it would otherwise take the last node.

Each access to an atomic is one step here, and so is each store to the lock-protected `tail`. The
calls in progress are part of the state: at most one `push` for each index (`pushing`), and at most
one `pop` (`popping`), since pops are serialised by the lock. A slot access out of range panics.

The fields `swaps` and `calls` are history: no step reads them. They record the worker indices in
the order of their head swaps, and each finished `pop` with what was observed during the call.
-/

namespace ArcDischarge.SyncSlotMap

/-- `ReadySlot<usize>`. -/
inductive ReadySlot where
  | ready (i : ℕ)
  | inconsistent
  | none
  deriving DecidableEq, Repr

/-- The memory of a `SyncSlotMap`: the lock-protected `tail` and the shared `head` and `slots`. -/
structure Mem where
  /-- The number of workers; the array has one slot more, for the stub. -/
  cap : ℕ
  tail : ℕ
  head : ℕ
  slots : ℕ → ℕ

/-- `SyncSlotMap::new`. -/
def Mem.new (cap : ℕ) : Mem where
  cap := cap
  tail := cap
  head := cap
  slots := fun _ ↦ cap + 1

/-- `slots.len()`. -/
def Mem.len (m : Mem) : ℕ := m.cap + 1

/-- `slots[i].load()`, which panics out of range. -/
def Mem.load (m : Mem) (i : ℕ) : Option ℕ := if i < m.len then some (m.slots i) else none

/-- `slots[i].store(v)`, which panics out of range. -/
def Mem.store (m : Mem) (i v : ℕ) : Option Mem :=
  if i < m.len then some { m with slots := Function.update m.slots i v } else none

/-! ## `SyncSlotMapShared::push` -/

/-- The next step of a `push(index)`. -/
inductive PushPc where
  | reset
  | swap
  /-- `prev` is what the head swap returned. -/
  | link (prev : ℕ)
  | panicked
  deriving DecidableEq, Repr

/-- One step of `push(index)`; no counter means that the call has returned. -/
def Mem.push (m : Mem) (index : ℕ) : PushPc → Mem × Option PushPc
  | .reset =>
    match m.store index m.len with
    | some m' => (m', some .swap)
    | none => (m, some .panicked)
  | .swap => ({ m with head := index }, some (.link m.head))
  | .link prev =>
    match m.store prev index with
    | some m' => (m', none)
    | none => (m, some .panicked)
  | .panicked => (m, some .panicked)

/-! ## `SyncSlotMapLock::pop` -/

/-- The next step of a `pop()`, with its local variables. -/
inductive PopPc where
  /-- Read `exclusive.tail` and load its slot. -/
  | start
  /-- The stub is at the tail: store its successor to `exclusive.tail`. -/
  | skipStub (next : ℕ)
  /-- Load the slot of the node after the stub. -/
  | loadNext (tail : ℕ)
  /-- `next <= cap`: store it to `exclusive.tail` and return the old tail. -/
  | advance (tail next : ℕ)
  /-- Compare `head` with the tail. -/
  | loadHead (tail : ℕ)
  /-- Inside `self.shared.push(cap)`. -/
  | pushStub (tail : ℕ) (pc : PushPc)
  /-- Load the tail's slot again. -/
  | reload (tail : ℕ)
  /-- The second `next <= cap`. -/
  | finish (tail next : ℕ)
  | panicked
  deriving DecidableEq, Repr

/-- The test `next <= cap` after the first loads. -/
def Mem.test (m : Mem) (tail next : ℕ) : PopPc :=
  if next ≤ m.cap then .advance tail next else .loadHead tail

/-- One step of `pop()`: another program counter, or the result. -/
def Mem.pop (m : Mem) : PopPc → Mem × (PopPc ⊕ ReadySlot)
  | .start =>
    match m.load m.tail with
    | none => (m, .inl .panicked)
    | some next =>
      if m.tail = m.cap then
        if next > m.cap then (m, .inr .none) else (m, .inl (.skipStub next))
      else (m, .inl (m.test m.tail next))
  | .skipStub next => ({ m with tail := next }, .inl (.loadNext next))
  | .loadNext tail =>
    match m.load tail with
    | none => (m, .inl .panicked)
    | some next => (m, .inl (m.test tail next))
  | .advance tail next =>
    -- the `debug_assert!(tail != cap)` stands between the store and the return
    ({ m with tail := next }, if tail = m.cap then .inl .panicked else .inr (.ready tail))
  | .loadHead tail =>
    if m.head ≠ tail then (m, .inr .inconsistent) else (m, .inl (.pushStub tail .reset))
  | .pushStub tail pc =>
    match m.push m.cap pc with
    | (m', some pc') => (m', .inl (.pushStub tail pc'))
    | (m', none) => (m', .inl (.reload tail))
  | .reload tail =>
    match m.load tail with
    | none => (m, .inl .panicked)
    | some next =>
      if next ≤ m.cap then (m, .inl (.finish tail next)) else (m, .inr .inconsistent)
  | .finish tail next => ({ m with tail := next }, .inr (.ready tail))
  | .panicked => (m, .inl .panicked)

/-! ## Calls in progress -/

/-- A `pop()` in progress, with what has been observed since it was called. -/
structure PopCall where
  pc : PopPc
  /-- The queue when the call began. -/
  atStart : List ℕ
  /-- The queue was empty at some moment of the call. -/
  sawEmpty : Bool
  /-- Some `push` was in progress at some moment of the call. -/
  overlapped : Bool

/-- A finished `pop()`. -/
structure PopReturn where
  result : ReadySlot
  atStart : List ℕ
  sawEmpty : Bool
  overlapped : Bool

/-- The map, the calls in progress, and the history. -/
structure State where
  mem : Mem
  pushing : ℕ → Option PushPc
  popping : Option PopCall
  /-- The worker indices in the order of their head swaps. -/
  swaps : List ℕ
  /-- The finished pops, in order. -/
  calls : List PopReturn

namespace State

/-- The indices returned as `Ready`, in order. -/
def returned (s : State) : List ℕ :=
  s.calls.filterMap fun c ↦ match c.result with
    | .ready i => some i
    | _ => none

/-- The queue: swapped in, and not yet returned. -/
def queue (s : State) : List ℕ := s.swaps.drop s.returned.length

/-- Some `push` is in progress. -/
def pushInFlight (s : State) : Bool := (List.range s.mem.cap).any fun i ↦ (s.pushing i).isSome

/-- Note in the `pop` in progress, if there is one, what can be seen now. -/
def observe (s : State) : State :=
  { s with popping := s.popping.map fun c ↦
      { c with sawEmpty := c.sawEmpty || s.queue.isEmpty
               overlapped := c.overlapped || s.pushInFlight } }

end State

/-- A new map with no call in progress. -/
def State.new (cap : ℕ) : State where
  mem := .new cap
  pushing := fun _ ↦ none
  popping := none
  swaps := []
  calls := []

inductive Action where
  /-- `push(i)` is called. -/
  | push (i : ℕ)
  | pushStep (i : ℕ)
  /-- `pop()` is called. -/
  | pop
  | popStep
  deriving DecidableEq, Repr

def step (s : State) : Action → Option State
  | .push i =>
    match s.pushing i with
    | some _ => none
    | none => some { s with pushing := Function.update s.pushing i (some .reset) }.observe
  | .pushStep i =>
    match s.pushing i with
    | none => none
    | some pc =>
      let r := s.mem.push i pc
      some { s with mem := r.1
                    pushing := Function.update s.pushing i r.2
                    swaps := if pc = PushPc.swap then s.swaps ++ [i] else s.swaps }.observe
  | .pop =>
    match s.popping with
    | some _ => none
    | none => some { s with popping := some ⟨.start, s.queue, false, false⟩ }.observe
  | .popStep =>
    match s.popping with
    | none => none
    | some c =>
      match s.mem.pop c.pc with
      | (m, .inl pc) => some { s with mem := m, popping := some { c with pc := pc } }.observe
      | (m, .inr r) =>
        some { s with mem := m
                      popping := none
                      calls := s.calls ++ [⟨r, c.atStart, c.sawEmpty, c.overlapped⟩] }

/-- What a step can do, with the state it leads to. -/
inductive Move (s : State) : Action → State → Prop where
  | push {i : ℕ} (hp : s.pushing i = none) : Move s (.push i)
      { s with pushing := Function.update s.pushing i (some .reset) }.observe
  | pushStep {i : ℕ} {pc : PushPc} (hp : s.pushing i = some pc) : Move s (.pushStep i)
      { s with mem := (s.mem.push i pc).1
               pushing := Function.update s.pushing i (s.mem.push i pc).2
               swaps := if pc = PushPc.swap then s.swaps ++ [i] else s.swaps }.observe
  | pop (hp : s.popping = none) : Move s .pop
      { s with popping := some ⟨.start, s.queue, false, false⟩ }.observe
  | popGoOn {c : PopCall} {m : Mem} {pc : PopPc} (hc : s.popping = some c)
      (h : s.mem.pop c.pc = (m, .inl pc)) : Move s .popStep
      { s with mem := m, popping := some { c with pc := pc } }.observe
  | popReturn {c : PopCall} {m : Mem} {r : ReadySlot} (hc : s.popping = some c)
      (h : s.mem.pop c.pc = (m, .inr r)) : Move s .popStep
      { s with mem := m
               popping := none
               calls := s.calls ++ [⟨r, c.atStart, c.sawEmpty, c.overlapped⟩] }

theorem move_of_step {s t : State} {a : Action} (h : step s a = some t) : Move s a t := by
  cases a with
  | push i =>
    cases hp : s.pushing i with
    | some pc => simp [step, hp] at h
    | none =>
      simp only [step, hp, Option.some.injEq] at h
      exact h ▸ .push hp
  | pushStep i =>
    cases hp : s.pushing i with
    | none => simp [step, hp] at h
    | some pc =>
      simp only [step, hp, Option.some.injEq] at h
      exact h ▸ .pushStep hp
  | pop =>
    cases hp : s.popping with
    | some c => simp [step, hp] at h
    | none =>
      simp only [step, hp, Option.some.injEq] at h
      exact h ▸ .pop hp
  | popStep =>
    cases hp : s.popping with
    | none => simp [step, hp] at h
    | some c =>
      simp only [step, hp] at h
      split at h <;> rename_i heq <;> rw [Option.some.injEq] at h
      · exact h ▸ .popGoOn hp heq
      · exact h ▸ .popReturn hp heq

/-- The slot map of capacity `cap` under any interleaving of `push` and `pop`. -/
def machine (cap : ℕ) : Machine State Action where
  init s := s = .new cap
  step := step

/-- The contract of `push`: a worker's own index, which is not in the queue. (That it is not being
pushed either is part of `step`.) -/
def Fresh (s : State) : Action → Prop
  | .push i => i < s.mem.cap ∧ i ∉ s.queue
  | _ => True

instance (s : State) : (a : Action) → Decidable (Fresh s a)
  | .push i => inferInstanceAs (Decidable (i < s.mem.cap ∧ i ∉ s.queue))
  | .pushStep _ | .pop | .popStep => isTrue trivial

end ArcDischarge.SyncSlotMap
