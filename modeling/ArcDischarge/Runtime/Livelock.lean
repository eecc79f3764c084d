import ArcDischarge.Runtime.Returns

/-!
# A `schedule_global` that never returns

What becomes of the runtime when a worker has pushed itself twice, after a spurious return from its
wait. If it was the last in the queue, its slot is linked to itself, and once the tail of the queue
is there it does not get past it: each `pop()` returns the same worker. While that worker runs a
task, its parker is not set, so a `schedule_global` that gets the lock of `parked_workers` pops it
again and again. Only a worker that parks could break the link. Of two workers the other one does
not park meanwhile: it finds the driver free whenever it has nothing to do.

So the call goes round its loop as long as the task runs, with `parked_workers` locked. If the call
is one of that very task, this is forever. A worker that has returned from its task may take the
driver, and then the other one may park and break the link.
-/

namespace ArcDischarge.Runtime

open Machine

variable {capacity i : ℕ} {θ θ' : Thread} {m m' : Shared} {ℓ ℓ' : Local} {a : Label}
  {c d e : State} {as bs : List (Thread × Label)}

/-- The loop of `schedule_global` for a worker that is not parked. -/
def Call.spins (i : ℕ) : Call → Prop
  | .callPop | .pop => True
  | .lockParker j | .inspect j | .release j true => j = i
  | _ => False

/-- Outside the parking branch. -/
def Base.upright : Base → Prop
  | .top | .getGlobal | .running _ | .tryLockIo | .polling | .events | .unlockIo => True
  | _ => False

/-- Worker `i` runs a task while its slot is linked to itself, with the tail on it. Of the two
workers the other one is not about to park. -/
structure SelfLinked (i : ℕ) (c : State) : Prop where
  running : ∃ t, (c.pc (.worker i)).base = .running t
  upright : ∀ j, j < 2 → j ≠ i → (c.pc (.worker j)).base.upright
  parker : c.shared.parker i = none
  tail : c.shared.parkedWorkers.mem.tail = i
  slot : c.shared.parkedWorkers.mem.slots i = i

/-- The task that worker `i` runs does not return. -/
def TaskGoesOn (i : ℕ) (c : State) (x : Thread × Label) : Prop :=
  x = (.worker i, .step) → (c.pc (.worker i)).call ≠ none

instance (i : ℕ) (c : State) (x : Thread × Label) : Decidable (TaskGoesOn i c x) :=
  inferInstanceAs (Decidable (_ → _))

/-- Whoever has the lock of `parked_workers` goes round the loop with worker `i` in its hand. -/
structure Spins (i : ℕ) (c : State) : Prop extends SelfLinked i c where
  call : ∀ θ, c.shared.parkedLock = some θ → ∃ k, (c.pc θ).call = some k ∧ k.spins i
  pop : ∀ p, c.shared.parkedWorkers.popping = some p → p.pc = .start ∨ p.pc = .advance i i

theorem SelfLinked.spins (h : SelfLinked i c) (hc : (machine 2 capacity).Reachable c)
    (hfree : c.shared.parkedLock = none) : Spins i c := by
  refine ⟨h, fun θ hθ ↦ ?_, fun p hp ↦ ?_⟩
  · cases hfree.symm.trans hθ
  · obtain ⟨θ, hθ⟩ := (matched_of_reachableUnder hc).pop.mp (by simp [hp])
    cases hfree.symm.trans (((ok_of_reachableUnder hc).2 θ).parked.mpr ⟨.pop, hθ, trivial⟩)

/-- A step that leaves the queue and its lock alone. -/
theorem Spins.frame (h : Spins i c) (hmap : m'.parkedWorkers = c.shared.parkedWorkers)
    (hlock : m'.parkedLock = c.shared.parkedLock) (hparker : m'.parker i = none)
    (hcall : c.shared.parkedLock = some θ → ∃ k, ℓ'.call = some k ∧ k.spins i)
    (hrunning : θ = .worker i → ∃ t, ℓ'.base = .running t)
    (hupright : ∀ j, j < 2 → j ≠ i → θ = .worker j → ℓ'.base.upright) :
    Spins i ⟨m', Function.update c.pc θ ℓ'⟩ := by
  refine ⟨⟨?_, fun j hj hji ↦ ?_, hparker, hmap ▸ h.tail, hmap ▸ h.slot⟩, fun θ' hθ' ↦ ?_,
    hmap ▸ h.pop⟩
  · by_cases hθ : Thread.worker i = θ
    · simpa [hθ] using hrunning hθ.symm
    · simpa [hθ] using h.running
  · by_cases hθ : Thread.worker j = θ
    · simpa [hθ] using hupright j hj hji hθ.symm
    · simpa [hθ] using h.upright j hj hji
  · rw [hlock] at hθ'
    by_cases hθ : θ' = θ
    · subst hθ
      simpa using hcall hθ'
    · simpa [hθ] using h.call θ' hθ'

/-- A step inside a call, or into one. -/
theorem Spins.frame_call (h : Spins i c) (hmap : m'.parkedWorkers = c.shared.parkedWorkers)
    (hlock : m'.parkedLock = c.shared.parkedLock) (hparker : m'.parker i = none)
    (hbase : ℓ'.base = (c.pc θ).base)
    (hcall : c.shared.parkedLock = some θ → ∃ k, ℓ'.call = some k ∧ k.spins i) :
    Spins i ⟨m', Function.update c.pc θ ℓ'⟩ := by
  refine h.frame hmap hlock hparker hcall ?_ ?_
  · rintro rfl
    rw [hbase]
    exact h.running
  · rintro j hj hji rfl
    rw [hbase]
    exact h.upright j hj hji

/-- A step of `pop()` while the slot of the tail is linked to itself. -/
theorem Spins.popStep {q : SyncSlotMap.State} (h : Spins i c) (hi : i < 2)
    (hcap : c.shared.parkedWorkers.mem.cap = 2)
    (hq : SyncSlotMap.step c.shared.parkedWorkers .popStep = some q) :
    (afterPop 2 q).spins i ∧ q.mem = c.shared.parkedWorkers.mem ∧
      ∀ p, q.popping = some p → p.pc = .start ∨ p.pc = .advance i i := by
  obtain ⟨htail, hslot⟩ := And.intro h.tail h.slot
  have hlt : i < 2 + 1 := Nat.lt_succ_of_lt hi
  have hmem : { c.shared.parkedWorkers.mem with tail := i } = c.shared.parkedWorkers.mem := by
    rw [← htail]
  have hstart : c.shared.parkedWorkers.mem.pop .start =
      (c.shared.parkedWorkers.mem, .inl (.advance i i)) := by
    simp [SyncSlotMap.Mem.pop, SyncSlotMap.Mem.load, SyncSlotMap.Mem.len, SyncSlotMap.Mem.test,
      hcap, htail, hslot, hlt, hi.ne, hi.le]
  have hadvance : c.shared.parkedWorkers.mem.pop (.advance i i) =
      (c.shared.parkedWorkers.mem, .inr (.ready i)) := by
    rw [SyncSlotMap.Mem.pop, hmem, if_neg (by simp [hcap, hi.ne])]
  cases SyncSlotMap.move_of_step hq with
  | @popGoOn p mem pc hp hpop =>
    rw [afterPop_eq_pop.mpr (by simp [SyncSlotMap.State.observe])]
    rcases h.pop p hp with hpc | hpc
    · rw [hpc, hstart] at hpop
      cases hpop
      refine ⟨trivial, rfl, fun p' hp' ↦ Or.inr ?_⟩
      obtain ⟨p₀, hp₀, rfl⟩ := SyncSlotMap.State.observe_popping_eq_some _ |>.mp hp'
      cases hp₀
      rfl
    · rw [hpc, hadvance] at hpop
      cases hpop
  | @popReturn p mem res hp hpop =>
    rcases h.pop p hp with hpc | hpc
    · rw [hpc, hstart] at hpop
      cases hpop
    · rw [hpc, hadvance] at hpop
      cases hpop
      exact ⟨by simp [afterPop, Call.spins, hi], rfl, by simp⟩

/-- The other worker does not park: nobody but itself takes the driver. -/
theorem Spins.ioDriver {j : ℕ} (h : Spins i c) (hi : i < 2) (hj : j < 2) (hji : j ≠ i)
    (hok : ∀ θ, Ok 2 θ c.shared (c.pc θ)) (hb : (c.pc (.worker j)).base = .tryLockIo) :
    c.shared.ioDriver = none := by
  by_contra hio
  obtain ⟨θ, hθ⟩ := Option.ne_none_iff_exists'.mp hio
  have hholds := (hok θ).io.mp hθ
  obtain ⟨k, hk, rfl⟩ := (hok θ).worker.mp fun h ↦ by simp [h, Base.holdsIo] at hholds
  obtain ⟨t, ht⟩ := h.running
  obtain rfl | rfl : k = j ∨ k = i := by omega
  · rw [hb] at hholds
    exact hholds
  · rw [ht] at hholds
    exact hholds

/-- The call that has the lock. -/
theorem Spins.call_holder {k : Call} {k' : Option Call} (h : Spins i c) (hi : i < 2)
    (hn : c.shared.n = 2) (hcap : c.shared.parkedWorkers.mem.cap = 2)
    (hlock : c.shared.parkedLock = some θ) (hk : (c.pc θ).call = some k)
    (hmove : CallMove θ c.shared k m' k') :
    Spins i ⟨m', Function.update c.pc θ { c.pc θ with call := k' }⟩ ∧
      m'.parkedLock = c.shared.parkedLock := by
  obtain ⟨k₀, hk₀, hspins⟩ := h.call θ hlock
  obtain rfl : k = k₀ := Option.some.inj (hk.symm.trans hk₀)
  -- the queue changes in the steps of a `pop()` only
  have hqueue {q : SyncSlotMap.State} {k' : Call}
      (hmem : q.mem = c.shared.parkedWorkers.mem) (hk' : k'.spins i)
      (hpop : ∀ p, q.popping = some p → p.pc = .start ∨ p.pc = .advance i i) :
      Spins i ⟨{ c.shared with parkedWorkers := q },
        Function.update c.pc θ { c.pc θ with call := some k' }⟩ := by
    have hsame : Spins i ⟨c.shared, Function.update c.pc θ { c.pc θ with call := some k' }⟩ :=
      h.frame_call rfl rfl h.parker rfl fun _ ↦ ⟨k', rfl, hk'⟩
    exact ⟨⟨hsame.running, hsame.upright, h.parker, hmem ▸ h.tail, hmem ▸ h.slot⟩, hsame.call,
      hpop⟩
  cases hmove with
  | callPop hq =>
    cases SyncSlotMap.move_of_step hq with
    | pop hp =>
      refine ⟨hqueue rfl trivial fun p hp ↦ Or.inl ?_, rfl⟩
      obtain ⟨p₀, hp₀, rfl⟩ := SyncSlotMap.State.observe_popping_eq_some _ |>.mp hp
      cases hp₀
      rfl
  | @pop q hq =>
    obtain ⟨hspins, hmem, hpop⟩ := h.popStep hi hcap hq
    rw [← hn] at hspins
    exact ⟨hqueue hmem hspins hpop, rfl⟩
  | inspectParked hp =>
    obtain rfl : _ = i := hspins
    cases h.parker.symm.trans hp
  | lockParker | inspectNone =>
    obtain rfl : _ = i := hspins
    exact ⟨h.frame_call rfl rfl h.parker rfl fun _ ↦ ⟨_, rfl, rfl⟩, rfl⟩
  | @release j again =>
    cases again with
    | true => exact ⟨h.frame_call rfl rfl h.parker rfl fun _ ↦ ⟨_, rfl, trivial⟩, rfl⟩
    | false => exact absurd hspins id
  | _ => exact absurd hspins id

/-- A call that has not got the lock yet. -/
theorem Spins.call_other {k : Call} {k' : Option Call} (h : Spins i c)
    (hok : ∀ θ, Ok 2 θ c.shared (c.pc θ)) (hlock : c.shared.parkedLock ≠ some θ)
    (hk : (c.pc θ).call = some k) (hmove : CallMove θ c.shared k m' k') :
    Spins i ⟨m', Function.update c.pc θ { c.pc θ with call := k' }⟩ ∧
      (m'.parkedLock = c.shared.parkedLock ∨ c.shared.parkedLock = none) := by
  have hnot : ¬k.holdsParked := fun hheld ↦ hlock ((hok θ).parked.mpr ⟨k, hk, hheld⟩)
  have hcall {k' : Option Call} : c.shared.parkedLock = some θ → ∃ p, k' = some p ∧ p.spins i :=
    fun h ↦ absurd h hlock
  cases hmove with
  | push | skip => exact ⟨h.frame_call rfl rfl h.parker rfl hcall, Or.inl rfl⟩
  | lock hfree =>
    have hsame : Spins i ⟨c.shared, Function.update c.pc θ
        { c.pc θ with call := some .callPop }⟩ := h.frame_call rfl rfl h.parker rfl hcall
    refine ⟨⟨⟨hsame.running, hsame.upright, h.parker, h.tail, h.slot⟩, fun θ' hθ' ↦ ?_, h.pop⟩,
      Or.inr hfree⟩
    obtain rfl : θ = θ' := Option.some.inj hθ'
    exact ⟨.callPop, by simp, trivial⟩
  | _ => exact absurd trivial hnot

/-- The other worker. -/
theorem Spins.worker {j : ℕ} (h : Spins i c) (hi : i < 2) (hj : j < 2) (hji : j ≠ i)
    (hok : ∀ θ, Ok 2 θ c.shared (c.pc θ)) (hlock : c.shared.parkedLock ≠ some (.worker j))
    (hmove : WorkerMove j c.shared (c.pc (.worker j)) (c.pc (.worker j)).base a m' ℓ') :
    Spins i ⟨m', Function.update c.pc (.worker j) ℓ'⟩ ∧
      m'.parkedLock = c.shared.parkedLock := by
  refine ⟨?_, hmove.parkedLock_eq⟩
  have hparkedLock := hmove.parkedLock_eq
  have hupright := h.upright j hj hji
  have hio := h.ioDriver hi hj hji hok
  generalize hb : (c.pc (.worker j)).base = b at hmove hupright hio
  have hframe (hmap : m'.parkedWorkers = c.shared.parkedWorkers)
      (hparker : m'.parker = c.shared.parker) (hbase : ℓ'.base.upright) :
      Spins i ⟨m', Function.update c.pc (.worker j) ℓ'⟩ :=
    h.frame hmap hparkedLock (hparker ▸ h.parker) (fun h ↦ absurd h hlock)
      (fun h ↦ absurd (Thread.worker.inj h) hji) fun _ _ _ _ ↦ hbase
  cases hmove with
  | top => exact hframe rfl rfl (of_top (P := Base.upright) trivial fun _ ↦ trivial)
  | getGlobal => exact hframe rfl rfl (of_getGlobal (P := Base.upright) trivial fun _ ↦ trivial)
  | runningLocal | eventsLocal | runningGlobal | eventsGlobal =>
    exact hframe rfl rfl (by simp [hb, Base.upright])
  | noIo h => cases (hio rfl).symm.trans h
  | runningDone | lockIo | pollReturn | eventsDone | unlockIo => exact hframe rfl rfl trivial
  | _ => exact absurd hupright id

/-- The worker itself, whose task goes on. -/
theorem Spins.own (h : Spins i c) (hlock : c.shared.parkedLock ≠ some (.worker i))
    (hk : (c.pc (.worker i)).call = none) (hgoes : TaskGoesOn i c (.worker i, a))
    (hmove : WorkerMove i c.shared (c.pc (.worker i)) (c.pc (.worker i)).base a m' ℓ') :
    Spins i ⟨m', Function.update c.pc (.worker i) ℓ'⟩ ∧
      m'.parkedLock = c.shared.parkedLock := by
  obtain ⟨t, ht⟩ := h.running
  refine ⟨?_, hmove.parkedLock_eq⟩
  rw [ht] at hmove
  cases hmove with
  | runningDone => exact absurd hk (hgoes rfl)
  | runningLocal | runningGlobal =>
    exact h.frame_call rfl rfl h.parker (by simp) fun h ↦ absurd h hlock

theorem Spins.step {x : Thread × Label} (hi : i < 2) (hc : (machine 2 capacity).Reachable c)
    (h : Spins i c) (hgoes : TaskGoesOn i c x)
    (hcd : (machine 2 capacity).step c x = some d) :
    Spins i d ∧ (d.shared.parkedLock = c.shared.parkedLock ∨ c.shared.parkedLock = none) := by
  obtain ⟨hn, hok⟩ := ok_of_reachableUnder hc
  obtain ⟨θ, a⟩ := x
  obtain ⟨m, ℓ, hs, rfl⟩ := System.machine_step_eq_some.mp hcd
  have hmove : Move θ c.shared (c.pc θ) a m ℓ := move_of_step hs
  have hlocked : (c.pc θ).call = none → c.shared.parkedLock ≠ some θ := fun hnone hlock ↦ by
    obtain ⟨k, hk, -⟩ := h.call θ hlock
    cases hnone.symm.trans hk
  cases hmove with
  | call hk hmove =>
    by_cases hlock : c.shared.parkedLock = some θ
    · exact (h.call_holder hi hn (inRange_of_reachableUnder hc).cap_eq hlock hk hmove).imp id Or.inl
    · exact h.call_other hok hlock hk hmove
  | enter hk =>
    exact ⟨h.frame_call rfl rfl h.parker rfl fun h ↦ absurd h (hlocked hk), Or.inl rfl⟩
  | @worker j _ _ _ _ _ hk hmove =>
    have hj := (hok (.worker j)).lt_of_workerMove hmove
    by_cases hji : j = i
    · subst hji
      exact (h.own (hlocked hk) hk hgoes hmove).imp id Or.inl
    · exact (h.worker hi hj hji hok (hlocked hk) hmove).imp id Or.inl

/-- As long as the task runs, and forever if it is the one that has the lock. -/
theorem Spins.run (hi : i < 2) (hc : (machine 2 capacity).Reachable c) (h : Spins i c)
    (hexec : (machine 2 capacity).exec c as = some d)
    (hgoes : (machine 2 capacity).Along (TaskGoesOn i) c as ∨
      c.shared.parkedLock = some (.worker i)) :
    Spins i d ∧ ∀ θ, c.shared.parkedLock = some θ → d.shared.parkedLock = some θ := by
  induction as generalizing c with
  | nil =>
    rw [exec_nil, Option.some.injEq] at hexec
    subst hexec
    exact ⟨h, fun _ hθ ↦ hθ⟩
  | cons x as ih =>
    rw [exec_cons, Option.bind_eq_some_iff] at hexec
    obtain ⟨u, hu, hexec⟩ := hexec
    have hgoesOn : TaskGoesOn i c x := by
      refine hgoes.elim (fun h ↦ h.1) fun hlock _ hnone ↦ ?_
      obtain ⟨k, hk, -⟩ := h.call _ hlock
      cases hnone.symm.trans hk
    obtain ⟨hspins, hlock⟩ := h.step hi hc hgoesOn hu
    have hkeeps (θ : Thread) (hθ : c.shared.parkedLock = some θ) :
        u.shared.parkedLock = some θ := by
      rcases hlock with hlock | hlock
      · rw [hlock, hθ]
      · cases hlock.symm.trans hθ
    obtain ⟨hspins', hkeeps'⟩ :=
      ih (.step hc trivial hu) hspins hexec (hgoes.imp (fun h ↦ h.2 u hu) (hkeeps _))
    exact ⟨hspins', fun θ hθ ↦ hkeeps' θ (hkeeps θ hθ)⟩

/-- The parker of the worker is free for whoever has the lock. -/
theorem Spins.parkerLock {j : ℕ} (h : Spins i c) (hok : ∀ θ, Ok 2 θ c.shared (c.pc θ))
    (hlock : c.shared.parkedLock = some θ) (hj : AwaitsParker c θ j) :
    c.shared.parkerLock j = none := by
  obtain ⟨k, hk, hspins⟩ := h.call θ hlock
  have hk' : k = .lockParker j := by
    rcases hj with hj | ⟨-, hj, -⟩
    · exact Option.some.inj (hk.symm.trans hj)
    · cases hk.symm.trans hj
  subst hk'
  obtain rfl : j = i := hspins
  by_contra hheld
  obtain ⟨θ', hθ'⟩ := Option.ne_none_iff_exists'.mp hheld
  rcases ((hok θ').parker j).mp hθ' with ⟨p, hp, hholds⟩ | ⟨rfl, hholds⟩
  · -- a scheduler would have the lock of `parked_workers`
    have hparked : p.holdsParked := by cases p <;> trivial
    have hlock' := (hok θ').parked.mpr ⟨p, hp, hparked⟩
    cases hlock.symm.trans hlock'
    cases hk.symm.trans hp
    exact hholds
  · obtain ⟨t, ht⟩ := h.running
    rw [ht] at hholds
    exact hholds

/-- **The livelock.** A `schedule_global` that gets the lock of `parked_workers` while a task runs
on a worker that is linked to itself goes round its loop as long as the task does not return: the
call is not over, the lock is held, and the thread is not even blocked. If the call is one of this
task, that is so however the run goes on. -/
theorem livelock_of_selfLinked (hi : i < 2) (hc : (machine 2 capacity).Reachable c)
    (hlinked : SelfLinked i c) (hfree : c.shared.parkedLock = none)
    (hd : (machine 2 capacity).exec c as = some d)
    (has : (machine 2 capacity).Along (TaskGoesOn i) c as) (hθ : d.shared.parkedLock = some θ)
    (he : (machine 2 capacity).exec d bs = some e)
    (hbs : (machine 2 capacity).Along (TaskGoesOn i) d bs ∨ θ = .worker i) :
    (e.pc θ).call ≠ none ∧ e.shared.parkedLock = some θ ∧
      (machine 2 capacity).Enabled (takes θ) e := by
  have hd' := hc.of_exec hd
  have he' := hd'.of_exec he
  obtain ⟨hspins, -⟩ := (hlinked.spins hc hfree).run hi hc hd (Or.inl has)
  obtain ⟨hspins', hkeeps⟩ :=
    hspins.run hi hd' he (hbs.imp id fun hw ↦ hθ.trans (congrArg some hw))
  have hlock := hkeeps θ hθ
  obtain ⟨k, hk, -⟩ := hspins'.call θ hlock
  exact ⟨by simp [hk], hlock,
    enabled_call he' hk fun j ↦ hspins'.parkerLock (ok_of_reachableUnder he').2 hlock⟩

/-- Worker 0 polls. Worker 1 parks, returns spuriously and parks again; a scheduler wakes it, and it
runs the task. -/
def doublePush : List (Thread × Label) :=
  steps 0 3 ++ steps 1 10 ++ (.worker 1, .spurious) :: steps 1 13 ++
    (.other 0, .scheduleGlobal 0) :: List.replicate 12 (.other 0, .step) ++ steps 1 6

def pushedTwice : State := ((machine 2 32).exec (.new 2 32) doublePush).get (by decide)

/-- The task calls `schedule_global`, up to its first `pop()`. -/
def scheduleFromTask : List (Thread × Label) := (.worker 1, .scheduleGlobal 1) :: steps 1 2

def spinning : State := ((machine 2 32).exec pushedTwice scheduleFromTask).get (by decide)

theorem livelock_spinning : spinning.shared.parkedLock = some (.worker 1) ∧
    ∀ bs e, (machine 2 32).exec spinning bs = some e →
      (e.pc (.worker 1)).call ≠ none ∧ e.shared.parkedLock = some (.worker 1) ∧
        (machine 2 32).Enabled (takes (.worker 1)) e := by
  have hexec : (machine 2 32).exec (.new 2 32) doublePush = some pushedTwice :=
    (Option.some_get _).symm
  have hc : (machine 2 32).Reachable pushedTwice := .of_exec (.init rfl) hexec
  have hlinked : SelfLinked 1 pushedTwice := by
    refine ⟨⟨0, by decide⟩, fun j hj hj' ↦ ?_, by decide, by decide, by decide⟩
    obtain rfl : j = 0 := by omega
    have hbase : (pushedTwice.pc (.worker 0)).base = .polling := by decide
    rw [hbase]
    trivial
  have hlock : spinning.shared.parkedLock = some (.worker 1) := by decide
  exact ⟨hlock, fun bs e he ↦ livelock_of_selfLinked (by decide) hc hlinked (by decide)
    (Option.some_get _).symm (by decide) hlock he (Or.inr rfl)⟩

end ArcDischarge.Runtime
