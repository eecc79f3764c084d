import ArcDischarge.Queues.Conservation

/-!
# The discipline of a worker's queue

A refill pushes up to four tasks to the local queue without looking at its capacity. It comes when
the local queue was found empty, or on every 31st round if it has at most 16 tasks, so that 20 is
the most it can lead to; `schedule_local` stops at the capacity by itself. Hence the buffer never
grows, and the test of `schedule_local` against `capacity()` stays the same test.

A worker polls or parks when a refill has found nothing: then the local queue was empty before, and
the global one when it was locked.
-/

namespace ArcDischarge.Queues

/-- The local queue keeps to its capacity, and gives back what it was given in the same order. -/
structure Orderly (capacity : ℕ) (h : ExecutorHandle) : Prop where
  length : h.localQueue.length ≤ capacity
  capacity : h.localQueue.capacity = capacity
  fifo : h.pushed = h.popped ++ h.localQueue.items

/-- Where a worker stands, and what is in its local queue then. -/
def QueueOk (capacity : ℕ) : Thread → Local → Prop
  | .worker _ _, ℓ => ∃ h, ℓ.handle = some h ∧ Orderly capacity h ∧
      (ℓ.pc = .getMany → h.localQueue.length ≤ 16) ∧
      ∀ seen, ℓ.pc = .idle seen → h.localQueue.items = [] ∧ seen = []
  | .other _, _ => True

variable {capacity n : ℕ} {θ : Thread} {m m' : Shared} {ℓ ℓ' : Local} {h h' : ExecutorHandle}
  {e : Entry}

/-! ## The local queue -/

theorem length_push : (h.push e).localQueue.length = h.localQueue.length + 1 := by
  rw [VecDeque.length, push_items, List.length_append, List.length_singleton, VecDeque.length]

theorem Orderly.push (hq : Orderly capacity h) (hroom : h.localQueue.length < capacity) :
    Orderly capacity (h.push e) := by
  refine ⟨?_, ?_, ?_⟩
  · rw [length_push]
    exact hroom
  · have hlt : h.localQueue.length < h.localQueue.capacity := hq.capacity.symm ▸ hroom
    change (h.localQueue.pushBack e).capacity = capacity
    rw [VecDeque.pushBack_of_lt hlt]
    exact hq.capacity
  · change h.pushed ++ [e] = h.popped ++ (h.localQueue.items ++ [e])
    rw [hq.fifo, List.append_assoc]

theorem Orderly.pop (hq : Orderly capacity h) (hpop : h.pop = some (e, h')) :
    Orderly capacity h' := by
  obtain ⟨rest, hitems, rfl⟩ := of_pop hpop
  have hlength := hq.length
  rw [VecDeque.length, hitems, List.length_cons] at hlength
  refine ⟨Nat.le_of_succ_le hlength, hq.capacity, ?_⟩
  rw [hq.fifo, hitems, List.append_assoc]
  rfl

/-- A refill of a queue that has room for it. -/
theorem Orderly.getMany (hq : Orderly capacity h) (hroom : h.localQueue.length + n ≤ capacity) :
    Orderly capacity (getMany n m h).2 := by
  refine (getMany_rule (P := fun k _ h' ↦ Orderly capacity h' ∧ h'.localQueue.length + k ≤ capacity)
    ?_ ?_ ⟨hq, hroom⟩).1
  · intro k m' h' e m'' hP hpop
    refine ⟨hP.1.push (by omega), ?_⟩
    rw [length_push]
    omega
  · intro k m' h' hP _
    exact ⟨hP.1, by omega⟩

/-- A refill takes nothing away from the local queue. -/
theorem getMany_items_ne_nil (hitems : h.localQueue.items ≠ []) :
    (getMany n m h).2.localQueue.items ≠ [] := by
  refine getMany_rule (P := fun _ _ h' ↦ h'.localQueue.items ≠ []) ?_ (fun _ _ _ hP _ ↦ hP) hitems
  intro k m' h' e m'' _ _
  simp

/-- A refill that leaves the local queue empty has found both queues empty. -/
theorem eq_nil_of_getMany (hnil : (getMany (n + 1) m h).2.localQueue.items = []) :
    h.localQueue.items = [] ∧ m.globalQueue h.shared = [] := by
  constructor
  · by_contra hitems
    exact getMany_items_ne_nil hitems hnil
  · cases hqueue : m.globalQueue h.shared with
    | nil => rfl
    | cons e rest =>
      -- the first round pushes the front of the global queue
      rw [getMany, Shared.popFront, hqueue] at hnil
      exact absurd hnil (getMany_items_ne_nil (by simp))

/-! ## Whole runs -/

theorem QueueOk.move (hcapacity : 32 ≤ capacity) (hq : QueueOk capacity θ ℓ)
    (hmove : Move θ m ℓ m' ℓ') : QueueOk capacity θ ℓ' := by
  cases θ with
  | other k => trivial
  | worker r i =>
    obtain ⟨h₀, hh₀, horderly, hmany, hidle⟩ := hq
    cases hmove with
    | @popLocal h h' e counter hpc hh hpop =>
      obtain rfl : h₀ = h := Option.some.inj (hh₀.symm.trans hh)
      exact ⟨h', rfl, horderly.pop hpop, by simp [Local.run], by simp [Local.run]⟩
    | @skipLocal h counter hpc hh hshort =>
      obtain rfl : h₀ = h := Option.some.inj (hh₀.symm.trans hh)
      exact ⟨h₀, hh, horderly, fun _ ↦ hshort, by simp⟩
    | @getSome h h' e hpc hh hpop =>
      obtain rfl : h₀ = h := Option.some.inj (hh₀.symm.trans hh)
      have hrefilled : Orderly capacity (getMany 4 m h₀).2 :=
        horderly.getMany (by have := hmany hpc; omega)
      exact ⟨h', rfl, hrefilled.pop hpop, by simp [Local.run], by simp [Local.run]⟩
    | @getNone h hpc hh hpop =>
      -- the worker idles only after it has seen both queues empty
      obtain rfl : h₀ = h := Option.some.inj (hh₀.symm.trans hh)
      have hrefilled : Orderly capacity (getMany 4 m h₀).2 :=
        horderly.getMany (by have := hmany hpc; omega)
      rw [pop_eq_none] at hpop
      refine ⟨_, rfl, hrefilled, by simp, fun seen hseen ↦ ⟨hpop, ?_⟩⟩
      rw [Pc.idle.injEq] at hseen
      rw [← hseen]
      exact (eq_nil_of_getMany hpop).2
    | poisoned | pollTimeout | park | unpark | ret | merge | push =>
      exact ⟨h₀, hh₀, horderly, by simp, by simp⟩
    | unwinds => exact ⟨h₀, hh₀, horderly, hmany, hidle⟩
    | blockOn hpc hh =>
      rw [hh₀] at hh
      cases hh
    | reset hθ => cases hθ
    | @scheduleLocal _ h t _ hpc _ hh hroom =>
      obtain rfl : h₀ = h := Option.some.inj (hh₀.symm.trans hh)
      rw [horderly.capacity] at hroom
      exact ⟨_, rfl, horderly.push hroom, by simp [hpc], by simp [hpc]⟩
    | scheduleGlobal =>
      exact ⟨h₀, hh₀, horderly, by simp [Local.scheduleGlobal], by simp [Local.scheduleGlobal]⟩

theorem queueOk_of_reachable (hcapacity : 32 ≤ capacity) {c : State}
    (hc : (machine capacity).Reachable c) : ∀ θ, QueueOk capacity θ (c.pc θ) := by
  refine (System.holds_of_reachableUnder (J := fun _ ↦ True) (I := fun θ _ ℓ ↦ QueueOk capacity θ ℓ)
    hc ?_ ?_ ?_).2
  · rintro c rfl
    refine ⟨trivial, fun θ ↦ ?_⟩
    cases θ with
    | worker r i =>
      exact ⟨_, rfl, ⟨Nat.zero_le _, rfl, rfl⟩, by simp [State.new], by simp [State.new]⟩
    | other k => trivial
  · intro c θ a m ℓ _ hc _ hstep
    exact ⟨trivial, (hc.2 θ).move hcapacity (move_of_step hstep)⟩
  · intro c θ a m ℓ _ hc _ _ θ' _
    exact hc.2 θ'

structure Disciplined (capacity : ℕ) (c : State) : Prop where
  /-- The local queue of a worker never has more than its capacity, which never changes, and its
  entries leave in the order in which they came. -/
  orderly : ∀ r i, ∃ h, (c.pc (.worker r i)).handle = some h ∧
    h.localQueue.length ≤ capacity ∧ h.localQueue.capacity = capacity ∧
    h.pushed = h.popped ++ h.localQueue.items
  /-- Each entry that was accepted is in one queue, or was handed to `run` by one worker, once. -/
  conserved : OnePlace (· ∈ c.shared.accepted) (contents c.shared c.pc)
  nodup : c.shared.accepted.Nodup
  /-- An entry that was not accepted is one whose task was linked in the global queue, where an
  accepted entry represents it. -/
  merged : ∀ x ∈ c.shared.merged, x.1 ∉ c.shared.accepted ∧
    ∃ e ∈ x.2, e.task = x.1.task ∧ e ∈ c.shared.accepted
  /-- There are no others, but for those that a thread is about to push. -/
  calls : ∀ θ, ∀ n < (c.pc θ).calls, (∃ e ∈ c.shared.accepted, e.caller = θ ∧ e.call = n) ∨
    (∃ x ∈ c.shared.merged, x.1.caller = θ ∧ x.1.call = n) ∨
    ∃ running e, (c.pc θ).pc = .push running e ∧ e.call = n
  /-- A worker polls or parks only with an empty local queue, when it has just seen the global queue
  empty under its lock. -/
  idle : ∀ r i seen, (c.pc (.worker r i)).pc = .idle seen →
    (c.pc (.worker r i)).items = [] ∧ seen = []

theorem exists_of_pending {p : Pc} (h : p.pending = some e) : ∃ running, p = .push running e := by
  cases p with
  | push running e' =>
    cases h
    exact ⟨running, rfl⟩
  | _ => cases h

/-- **The queues of the workers are disciplined**, in every run and for every capacity from 32 on.
-/
theorem disciplined_of_reachable (hcapacity : 32 ≤ capacity) {c : State}
    (hc : (machine capacity).Reachable c) : Disciplined capacity c := by
  have hqueue := queueOk_of_reachable hcapacity hc
  have hhistory := history_of_reachable hc
  have hnumbered := numbered_of_reachable hc
  refine ⟨fun r i ↦ ?_, hhistory.conserved, hhistory.nodup, fun x hx ↦ ?_, fun θ n hn ↦ ?_,
    fun r i seen hseen ↦ ?_⟩
  · obtain ⟨h, hh, horderly, -⟩ := hqueue (.worker r i)
    exact ⟨h, hh, horderly.length, horderly.capacity, horderly.fifo⟩
  · exact ⟨((hnumbered x.1.caller).merged x hx rfl).2, hhistory.represented x hx⟩
  · refine ((hnumbered θ).calls n hn).imp_right (Or.imp_right ?_)
    rintro ⟨e, he, hcall⟩
    obtain ⟨running, hpush⟩ := exists_of_pending he
    exact ⟨running, e, hpush, hcall⟩
  · obtain ⟨h, hh, -, -, hidle⟩ := hqueue (.worker r i)
    rw [Local.items, hh]
    exact hidle seen hseen

/-- Worker 0 runs task 5, which is woken there until the local queue is full and the next two wakes
overflow: one to the global queue, and one to the entry that is there already. -/
def overflowing : List (Thread × Label) :=
  [(.other 0, .spawnOn 0 5), (.other 0, .step), (.worker 0 0, .step), (.worker 0 0, .step)] ++
    List.replicate 33 (.worker 0 0, .wake 5) ++
    [(.worker 0 0, .step), (.worker 0 0, .wake 5), (.worker 0 0, .step)]

def afterOverflow : State :=
  ((machine 32).exec (.new 32) overflowing).get (by decide +kernel)

theorem disciplined_afterOverflow : (machine 32).Reachable afterOverflow ∧
    (afterOverflow.pc (.worker 0 0)).items.length = 32 ∧
    (afterOverflow.shared.globalQueue 0).length = 1 ∧ afterOverflow.shared.merged.length = 1 ∧
    Disciplined 32 afterOverflow := by
  have hexec : (machine 32).exec (.new 32) overflowing = some afterOverflow :=
    (Option.some_get _).symm
  have hr : (machine 32).Reachable afterOverflow := .of_exec (.init rfl) hexec
  exact ⟨hr, by decide +kernel, by decide +kernel, by decide +kernel,
    disciplined_of_reachable (by decide) hr⟩

end ArcDischarge.Queues
