import ArcDischarge.Machine.Fair
import ArcDischarge.Task.Coherence

/-!
# Fair runs of a task

What a scheduler must grant for the task to get on. An agent that has begun something goes on with
it whenever it can again and again: a thread is not suspended forever, a poll of the user's future
returns, a thread that waits for the mutex gets it if the others keep releasing it. And a task in
the global queue is taken out of it by some worker, which is an assumption here: the loop of the
workers is that of `Runtime/Model.lean`, and that it does so is shown in `Runtime/Drained.lean`, in
runs that keep to the conditions there. Nobody is made to begin anything: a wake, a cancellation, a
call of `JoinHandle::poll` may never come.

The mutex is the only place where an agent can be held up, and each holder releases it.
-/

namespace ArcDischarge.Task

open Machine Run

variable {V P W : Type*}

/-- The steps by which an agent goes on with what it has begun. -/
def Label.goesOn : Label V P W → Prop
  | .step | .dequeue | .outcome _ | .enqueueLocal _ | .enqueueGlobal => True
  | .refill | .wake | .cancel | .join _ => False

/-- Whose turn it is. -/
inductive Turn where
  | own (i : Agent)
  /-- Some worker calls `get_many_global_tasks`. -/
  | refill

def Turn.takes : Turn → Agent × Label V P W → Prop
  | .own i, a => a.1 = i ∧ a.2.goesOn
  | .refill, a => a.2 = .refill

/-- Every turn comes; in particular some worker refills when the task is in the global queue. -/
def Fair (r : (machine V P W).Run) : Prop := ∀ j : Turn, r.StronglyFair j.takes

/-! ## Where an agent may stand -/

/-- The program counters of each kind of agent. -/
def Agent.mayBe : Agent → Pc V P W → Prop
  | _, .idle => True
  | .worker _, p => match p with
    | .enqueue | .cancelUpdate | .cancelSchedule => False
    | .takeLock _ _ | .take _ _ | .takeUnlock _ _ _ | .register _ => False
    | _ => True
  | .waker _, p => p = .enqueue
  | .canceller _, p => p = .cancelUpdate ∨ p = .cancelSchedule
  | .joiner, p => match p with
    | .takeLock _ _ | .take _ _ | .takeUnlock _ _ _ | .register _ => True
    | _ => False

/-- Waiting for the mutex. -/
def Pc.waits : Pc V P W → Prop
  | .lock | .cancelLock | .takeLock _ _ => True
  | _ => False

variable {c : State V P W} {m m' : Shared V P W} {p p' : Pc V P W} {a : Label V P W} {i : Agent}

theorem Move.mayBe (h : Move m i p a m' p') : i.mayBe p' := by
  cases h <;> simp [Agent.mayBe]

theorem mayBe_of_reachable (h : (machine V P W).Reachable c) (i : Agent) : i.mayBe (c.pc i) := by
  refine System.invariant (I := fun c ↦ ∀ i, Agent.mayBe i (c.pc i)) h ?_ ?_ i
  · rintro _ rfl i
    by_cases hi : i = .waker 0
    · simp [State.new, hi, Agent.mayBe]
    · simp [State.new, hi, Agent.mayBe]
  · intro c j a m p _ hI _ hs i
    by_cases hi : i = j
    · subst hi
      simpa using (move_of_step hs).mayBe
    · simpa [hi] using hI i

/-- An agent in the middle of something can go on, unless it waits for the mutex. -/
theorem exists_goesOn (hmay : i.mayBe p) (hidle : p ≠ .idle) (hlock : p.waits → m.lock = none) :
    ∃ a : Label V P W, a.goesOn ∧ (step i m p a).isSome := by
  cases i with
  | worker w =>
    cases p with
    | polling => exact ⟨.outcome .pending, trivial, rfl⟩
    | lock | cancelLock =>
      refine ⟨.step, trivial, ?_⟩
      simp [step, workerStep, hlock trivial]
    | run | close =>
      refine ⟨.step, trivial, ?_⟩
      cases hs : m.state <;> simp [step, workerStep, hs]
    | enter | cancelSet =>
      refine ⟨.step, trivial, ?_⟩
      cases hs : m.inner <;> simp [step, workerStep, hs]
    | idle => exact absurd rfl hidle
    | enqueue | cancelUpdate | cancelSchedule | takeLock | take | takeUnlock | register =>
      exact absurd hmay id
    | _ => exact ⟨.step, trivial, rfl⟩
  | waker k =>
    cases p with
    | enqueue => exact ⟨.enqueueGlobal, trivial, rfl⟩
    | idle => exact absurd rfl hidle
    | _ => simp [Agent.mayBe] at hmay
  | canceller k =>
    cases p with
    | cancelUpdate =>
      refine ⟨.step, trivial, ?_⟩
      cases hs : m.state <;> simp [step, cancellerStep, hs]
    | cancelSchedule => exact ⟨.step, trivial, rfl⟩
    | idle => exact absurd rfl hidle
    | _ => simp [Agent.mayBe] at hmay
  | joiner =>
    cases p with
    | takeLock =>
      refine ⟨.step, trivial, ?_⟩
      simp [step, joinerStep, hlock trivial]
    | take =>
      refine ⟨.step, trivial, ?_⟩
      cases hs : m.inner <;> simp [step, joinerStep, hs]
    | takeUnlock call again out =>
      refine ⟨.step, trivial, ?_⟩
      cases out <;> cases again <;> rfl
    | register => exact ⟨.step, trivial, rfl⟩
    | idle => exact absurd rfl hidle
    | _ => exact absurd hmay id

theorem enabled_own (h : (machine V P W).Reachable c) (hidle : c.pc i ≠ .idle)
    (hlock : (c.pc i).waits → c.shared.lock = none) :
    (machine V P W).Enabled (Turn.own i).takes c := by
  obtain ⟨a, ha, hs⟩ := exists_goesOn (mayBe_of_reachable h i) hidle hlock
  exact System.enabled_of_step (i := i) ⟨rfl, ha⟩ hs

theorem enabled_dequeue {w : ℕ} (hidle : c.pc (.worker w) = .idle)
    (hlocals : 0 < c.shared.locals w) :
    (machine V P W).Enabled (Turn.own (.worker w)).takes c := by
  refine System.enabled_of_step (i := .worker w) (a := .dequeue) ⟨rfl, trivial⟩ ?_
  simp [system, step, hidle, workerStep, hlocals]

/-- All but finitely many workers have nothing to do with the task. -/
theorem exists_idle (h : (machine V P W).Reachable c) :
    ∃ n, ∀ w, n ≤ w → c.pc (.worker w) = .idle := by
  refine System.invariant (I := fun c ↦ ∃ n, ∀ w, n ≤ w → c.pc (.worker w) = .idle) h ?_ ?_
  · rintro _ rfl
    exact ⟨0, fun w _ ↦ by simp [State.new]⟩
  · rintro c i a m p - ⟨n, hn⟩ - -
    cases i with
    | worker v =>
      refine ⟨max n (v + 1), fun w hw ↦ ?_⟩
      have hne : w ≠ v := by omega
      simpa [hne] using hn w (by omega)
    | _ => exact ⟨n, fun w hw ↦ by simpa using hn w hw⟩

theorem enabled_refill (h : (machine V P W).Reachable c) (hlinked : c.shared.linked = true) :
    (machine V P W).Enabled Turn.refill.takes c := by
  obtain ⟨n, hn⟩ := exists_idle h
  refine System.enabled_of_step (i := .worker n) (a := .refill) rfl ?_
  simp [system, step, hn n le_rfl, workerStep, hlinked]

theorem init_new : (machine V P W).init .new := rfl

/-- Nothing is left to do for a task in no queue that no agent works on. -/
theorem not_enabled_of_idle (hpc : ∀ i, c.pc i = .idle) (hlinked : c.shared.linked = false)
    (hlocals : ∀ w, c.shared.locals w = 0) (j : Turn) : ¬(machine V P W).Enabled j.takes c := by
  rintro ⟨⟨i, a⟩, d, ha, hcd⟩
  obtain ⟨m, p, hs, -⟩ := System.machine_step_eq_some.mp hcd
  have hmove := move_of_step hs
  simp only [hpc] at hmove
  cases hmove with
  | refill h => simp [hlinked] at h
  | dequeue h => simp [hlocals] at h
  | wake | cancel | join =>
    cases j with
    | own => exact ha.2
    | refill => cases ha

/-! ## The mutex is released -/

/-- How far a holder of the mutex is from releasing it. -/
def Pc.toUnlock : Pc V P W → ℕ
  | .enter => 4
  | .polling | .cancelSet => 3
  | .store | .cancelStore _ | .take _ _ => 2
  | .unlockReady | .unlockPending | .cancelUnlock _ | .takeUnlock _ _ _ => 1
  | _ => 0

theorem Move.toUnlock (h : Move m i p a m' p') (hp : p.holds) :
    ¬p'.holds ∨ p'.holds ∧ p'.toUnlock < p.toUnlock := by
  cases h with
  | enter | enterReturn | pending | finish | store | abort | abortNothing | cancelStore
  | takeNothing | take => exact Or.inr ⟨trivial, by simp [Pc.toUnlock]⟩
  | unlockReady | unlockPending | cancelUnlock | joinReady | joinRegister | joinPending =>
    exact Or.inl id
  | _ => exact absurd hp id

theorem not_waits_of_holds (hp : p.holds) : p ≠ .idle ∧ ¬p.waits := by
  cases p with
  | enter | polling | store | unlockReady | unlockPending | cancelSet | cancelStore | cancelUnlock
  | take | takeUnlock => exact ⟨by simp, id⟩
  | _ => exact absurd hp id

/-- **The mutex is free again and again.** -/
theorem leadsTo_unlocked {r : (machine V P W).Run} (hfair : Fair r) :
    r.LeadsTo (fun _ ↦ True) fun c ↦ c.shared.lock = none := by
  have hone (i : Agent) :
      r.LeadsTo (fun c ↦ c.shared.lock = some i) fun c ↦ c.shared.lock = none := by
    have hserved : r.Served (Turn.own i).takes fun c ↦ c.shared.lock = some i := by
      refine (hfair (.own i)).weaklyFair.served fun c hc hlock ↦ ?_
      have hholds := ((coherent_of_reachable hc).2 i).holds.mpr hlock
      obtain ⟨hidle, hwaits⟩ := not_waits_of_holds hholds
      exact enabled_own hc hidle fun h ↦ absurd h hwaits
    refine System.leadsTo_of_agent Pc.toUnlock hserved (fun _ h ↦ h.1) ?_ ?_
    · intro c a m p hc hlock hs
      have hmove := move_of_step hs
      have hp := ((coherent_of_reachable hc).2 i).holds
      have hp' := hmove.lockStep.own hp
      rcases hmove.toUnlock (hp.mpr hlock) with hnot | ⟨hholds, hlt⟩
      · refine Or.inl ?_
        -- the lock changes hands through a release only
        cases hmove.lockStep with
        | keep h hinside => exact absurd (hinside.mpr (hp.mpr hlock)) hnot
        | acquire h _ hinside => exact absurd hinside hnot
        | release _ h _ => exact h
      · exact Or.inr ⟨hp'.mp hholds, Or.inl hlt⟩
    · intro c j a m p hc hlock hj hs
      have hp := ((coherent_of_reachable hc).2 j).holds
      exact Or.inr (((move_of_step hs).lockStep.other hp hj.symm).mpr hlock)
  intro n _
  cases hlock : (r.state n).shared.lock with
  | none => exact ⟨n, le_rfl, hlock⟩
  | some i => exact hone i n hlock

/-- The turn of an agent that stays in the middle of something comes. -/
theorem served_own {r : (machine V P W).Run} (hfair : Fair r) {i : Agent} {H : State V P W → Prop}
    (hH : ∀ c, (machine V P W).Reachable c → H c → c.pc i ≠ .idle) :
    r.Served (Turn.own i).takes H := by
  refine (hfair (.own i)).served fun n _ ↦ ?_
  obtain ⟨k, hk, hlock⟩ := leadsTo_unlocked hfair n trivial
  refine ⟨k, hk, fun hHk ↦ ?_⟩
  exact enabled_own (r.reachable k) (hH _ (r.reachable k) hHk) fun _ ↦ hlock

/-- The turn of a worker comes as long as the task is in its local queue, or in its hands. -/
theorem served_worker {r : (machine V P W).Run} (hfair : Fair r) {w : ℕ}
    {H : State V P W → Prop}
    (hH : ∀ c, (machine V P W).Reachable c → H c →
      c.pc (.worker w) ≠ .idle ∨ 0 < c.shared.locals w) :
    r.Served (Turn.own (.worker w)).takes H := by
  refine (hfair (.own (.worker w))).served fun n _ ↦ ?_
  obtain ⟨k, hk, hlock⟩ := leadsTo_unlocked hfair n trivial
  refine ⟨k, hk, fun hHk ↦ ?_⟩
  by_cases hidle : (r.state k).pc (.worker w) = .idle
  · exact enabled_dequeue hidle ((hH _ (r.reachable k) hHk).resolve_left fun h ↦ h hidle)
  · exact enabled_own (r.reachable k) hidle fun _ ↦ hlock

end ArcDischarge.Task
