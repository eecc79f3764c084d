import ArcDischarge.BlockOn.Parking
import ArcDischarge.Task.Progress

/-!
# `block_on` returns

Once the task has its result, the loop comes to it in a fair run, from wherever it stands. It may be
asleep without its token; then the publisher of the result is about to unpark it. It may have looked
for the result just before it was there; then it registers, looks again, or parks and is woken. A
poll that begins after the result is there returns it.

The loop is fair if its thread is: a poll that can be begun or gone on with is, and a `park` whose
token is there returns. Spurious returns and foreign unparks are not asked for, and do no harm. Of
the task the run is fair as in `Task/Turns.lean`, so that some worker is assumed to refill.
-/

namespace ArcDischarge.BlockOn

open ArcDischarge.Task Machine Run

variable {V P : Type*} {r : (machine V P).Run} {s t : State V P} {a : Action V P}

/-- Whose turn it is. -/
inductive Turn where
  | task (j : Task.Turn)
  | poll
  | park

def Turn.takes : Turn → Action V P → Prop
  | .task j, a => ∃ b, a.inner = some b ∧ j.takes b
  | .poll, a => a = .poll
  | .park, a => a = .park

/-- Every turn comes. -/
def Fair (r : (machine V P).Run) : Prop := ∀ j : Turn, r.StronglyFair j.takes

/-! ## The run of the task inside -/

/-- The joiner goes on in the loop whenever it can in the task. -/
theorem enabled_task (h : (machine V P).Reachable s) {j : Task.Turn}
    (hj : (Task.machine V P Unit).Enabled j.takes s.task) :
    (machine V P).Enabled (Turn.task j).takes s := by
  obtain ⟨⟨i, b⟩, u, hb, hu⟩ := hj
  by_cases hi : i = .joiner
  · subst hi
    obtain ⟨m, p, hs, -⟩ := System.machine_step_eq_some.mp hu
    have hsound := sound_of_reachable h
    have hstep : b = .step ∧ s.task.pc .joiner ≠ .idle := by
      have hmove := Task.move_of_step (i := .joiner) hs
      generalize s.task.pc .joiner = q at hmove
      cases hmove with
      | join =>
        -- a call of `JoinHandle::poll` is no turn of the joiner
        cases j with
        | own => exact absurd hb.2 id
        | refill => cases hb
      | _ => exact ⟨rfl, by simp⟩
    obtain ⟨rfl, hne⟩ := hstep
    have hstage := hsound.idle.resolve_right hne
    refine Enabled.of_isSome (a := .step) ⟨(.joiner, .step), rfl, hb⟩ ?_
    simp [machine, step, hstage, hu]
  · refine Enabled.of_isSome (a := .task i b) ⟨(i, b), rfl, hb⟩ ?_
    simp [machine, step, hi, hu]

theorem fair_task (hfair : Fair r) : Task.Fair ((refines V P).run r) := fun j ↦
  (refines V P).stronglyFair (hfair (.task j)) (fun _ h ↦ h) fun _ hs h ↦ enabled_task hs h

/-! ## Asleep without the token -/

/-- How far a publisher is from its wake. -/
def toWake : Pc V P Unit → ℕ
  | .store | .cancelStore _ => 2
  | .unlockReady | .cancelUnlock _ => 1
  | _ => 0

theorem publishes_of_move {m m' : Shared V P Unit} {p p' : Pc V P Unit} {b : Label V P Unit}
    {i : Agent} (h : Task.Move m i p b m' p') (hp : p.publishes) :
    m' = m.wake ∨ p'.publishes ∧ toWake p' < toWake p := by
  cases h with
  | wakeReady => exact Or.inl rfl
  | @cancelWake w published => exact Or.inl rfl
  | store | unlockReady => exact Or.inr ⟨trivial, by simp [toWake]⟩
  | @cancelStore w published | @cancelUnlock w published =>
    cases published with
    | true => exact Or.inr ⟨trivial, by simp [toWake]⟩
    | false => exact absurd hp id
  | _ => exact absurd hp id

/-- Whoever publishes does not wait for the mutex. -/
theorem not_waits_of_publishes {p : Pc V P Unit} (hp : p.publishes) : p ≠ .idle ∧ ¬p.waits := by
  cases p with
  | store | unlockReady | wakeReady | cancelStore | cancelUnlock | cancelWake =>
    exact ⟨by simp, id⟩
  | _ => exact absurd hp id

/-- The publisher of a result unparks the thread that sleeps. -/
theorem leadsTo_awake_of_publishes (hfair : Fair r) (i : Agent) :
    r.LeadsTo (fun s ↦ (s.stage = .parked ∧ s.token = false) ∧ (s.task.pc i).publishes)
      fun s ↦ s.stage = .parked → s.token = true := by
  have hserved : r.Served (Turn.task (.own i)).takes fun s ↦
      (s.stage = .parked ∧ s.token = false) ∧ (s.task.pc i).publishes := by
    refine (hfair (.task (.own i))).weaklyFair.served fun s hs h ↦ enabled_task hs ?_
    obtain ⟨hidle, hwaits⟩ := not_waits_of_publishes h.2
    exact enabled_own (reachable_task hs) hidle fun h ↦ absurd h hwaits
  refine hserved.leadsTo (fun s ↦ toWake (s.task.pc i)) fun s a t hs h hst ↦ ?_
  obtain ⟨⟨hstage, htoken⟩, hp⟩ := h
  have hwaker := (publishes_of_parked hs hstage htoken).1
  cases move_of_step hst with
  | @task j b m p hj hmove =>
    by_cases htoken' : (s.token || unparks s.task ⟨m, Function.update s.task.pc j p⟩) = true
    · exact Or.inl fun _ ↦ htoken'
    rw [Bool.not_eq_true] at htoken'
    by_cases hji : j = i
    · subst hji
      rcases publishes_of_move hmove hp with rfl | ⟨hp', hlt⟩
      · -- the wake of a registered waker sets the token
        simp [unparks, Shared.wake, hwaker] at htoken'
      · exact Or.inr ⟨⟨⟨hstage, htoken'⟩, by simpa using hp'⟩, Or.inl (by simpa using hlt)⟩
    · refine Or.inr ⟨⟨⟨hstage, htoken'⟩, by simpa [Ne.symm hji] using hp⟩, Or.inr ⟨?_, ?_⟩⟩
      · simp [Ne.symm hji]
      · rintro ⟨b', hb, hi, -⟩
        cases hb
        exact hji hi
  | poll hstage' _ => cases hstage.symm.trans hstage'
  | step hstage' _ => cases hstage.symm.trans hstage'
  | park _ htoken' => cases htoken.symm.trans htoken'
  | spurious => exact Or.inl fun h ↦ by cases h
  | unpark => exact Or.inl fun _ ↦ rfl

/-! ## The loop gets on -/

/-- There is a result, and the loop has still to return it. -/
def Waiting (s : State V P) : Prop :=
  s.task.shared.inner ≠ .future ∧ ∀ val, s.stage ≠ .returned val

/-- How far the loop is from returning a result that is there. -/
def toReturn (s : State V P) : ℕ :=
  match s.stage with
  | .returned _ => 0
  | .call => 5
  | .parked => 6
  | .polling =>
    match s.task.pc .joiner with
    | .takeUnlock _ _ (some _) => 1
    | .take _ _ => 2
    | .takeLock _ _ => 3
    | .register _ => 4
    | .takeUnlock _ false none => 5
    | .takeUnlock _ true none => 7
    | _ => 8

/-- The kinds of turn the loop can be waiting for. -/
inductive Kind where
  | poll
  | step
  | park

def Kind.turn : Kind → Turn
  | .poll => .poll
  | .step => .task (.own .joiner)
  | .park => .park

def Kind.helps : Kind → State V P → Prop
  | .poll, s => s.stage = .call
  | .step, s => s.stage = .polling
  | .park, s => s.stage = .parked

theorem waiting_of_move {s t : State V P} (hs : Sound s) (hw : Waiting s) (h : Move s a t) :
    (∃ val, t.stage = .returned val) ∨ Waiting t ∧
      (toReturn t < toReturn s ∨ toReturn t = toReturn s ∧
        ∀ j : Kind, j.helps s → ¬j.turn.takes a ∧ j.helps t) := by
  obtain ⟨hinner, hnot⟩ := hw
  cases h with
  | @task i b m p hi h =>
    have hinner' : m.inner ≠ .future := fun hfuture ↦ hinner (h.due.1 hfuture)
    refine Or.inr ⟨⟨hinner', hnot⟩, Or.inr ⟨?_, fun j hj ↦ ⟨?_, ?_⟩⟩⟩
    · simp [toReturn, Function.update_of_ne hi.symm]
    · cases j with
      | poll | park => exact fun h ↦ by cases h
      | step =>
        rintro ⟨b', hb, hi', -⟩
        cases hb
        exact hi hi'
    · cases j <;> exact hj
  | @poll m p hstage h =>
    have hidle := hs.idle.resolve_left (by simp [hstage])
    rw [hidle] at h
    cases h with
    | join =>
      exact Or.inr ⟨⟨hinner, by simp⟩, Or.inl (by simp [toReturn, hstage])⟩
  | @step m p hstage h =>
    generalize hq : s.task.pc .joiner = q at h
    cases h with
    | takeNothing hfuture => exact absurd hfuture hinner
    | take hret =>
      exact Or.inr ⟨⟨by simp, by simp [Stage.next]⟩,
        Or.inl (by simp [toReturn, hstage, hq, Stage.next])⟩
    | takeLock | joinRegister | joinPending | register =>
      exact Or.inr ⟨⟨hinner, by simp [Stage.next]⟩,
        Or.inl (by simp [toReturn, hstage, hq, Stage.next])⟩
    | @joinReady call again val => exact Or.inl ⟨val, rfl⟩
  | park hstage _ | spurious hstage =>
    exact Or.inr ⟨⟨hinner, by simp⟩, Or.inl (by simp [toReturn, hstage])⟩
  | unpark =>
    refine Or.inr ⟨⟨hinner, hnot⟩, Or.inr ⟨rfl, fun j hj ↦ ⟨?_, ?_⟩⟩⟩
    · cases j with
      | poll | park => exact fun h ↦ by cases h
      | step =>
        rintro ⟨b, hb, -⟩
        cases hb
    · cases j <;> exact hj

theorem served_step (hfair : Fair r) :
    r.Served Kind.step.turn.takes fun s ↦ Waiting s ∧ Kind.step.helps s := by
  refine (hfair Kind.step.turn).served fun n _ ↦ ?_
  -- the poll may wait for the mutex
  obtain ⟨k, hk, hlock⟩ := leadsTo_unlocked (fair_task hfair) n trivial
  refine ⟨k, hk, fun h ↦ enabled_task (r.reachable k) ?_⟩
  have hne := (sound_of_reachable (r.reachable k)).polling h.2
  exact enabled_own (reachable_task (r.reachable k)) hne fun _ ↦ hlock

theorem served_poll (hfair : Fair r) :
    r.Served Kind.poll.turn.takes fun s ↦ Waiting s ∧ Kind.poll.helps s := by
  refine (hfair .poll).weaklyFair.served fun s hs ⟨_, hstage⟩ ↦ ?_
  change s.stage = .call at hstage
  have hidle := (sound_of_reachable hs).idle.resolve_left (by simp [hstage])
  refine Enabled.of_isSome (a := .poll) rfl ?_
  simp [machine, step, hstage, System.machine, system, Task.step, hidle, joinerStep]

theorem served_park (hfair : Fair r) :
    r.Served Kind.park.turn.takes fun s ↦ Waiting s ∧ Kind.park.helps s := by
  refine (hfair .park).served fun n ⟨⟨hinner, _⟩, hstage⟩ ↦ ?_
  have hawake : ∃ k, n ≤ k ∧ ((r.state k).stage = .parked → (r.state k).token = true) := by
    cases htoken : (r.state n).token with
    | true => exact ⟨n, le_rfl, fun _ ↦ htoken⟩
    | false =>
      obtain ⟨i, hi⟩ := (publishes_of_parked (r.reachable n) hstage htoken).2.resolve_left hinner
      exact leadsTo_awake_of_publishes hfair i n ⟨⟨hstage, htoken⟩, hi⟩
  obtain ⟨k, hk, htoken⟩ := hawake
  refine ⟨k, hk, fun ⟨_, hparked⟩ ↦ Enabled.of_isSome (a := .park) rfl ?_⟩
  change (r.state k).stage = .parked at hparked
  simp [machine, step, hparked, htoken hparked]

theorem leadsTo_returned (hfair : Fair r) :
    r.LeadsTo Waiting fun s ↦ ∃ val, s.stage = .returned val := by
  have hhelped : Helped (machine V P) (fun _ _ ↦ True) (fun j : Kind ↦ j.turn.takes) Waiting
      (fun s ↦ ∃ val, s.stage = .returned val) toReturn Kind.helps := by
    refine ⟨fun s _ h ↦ Or.inr ?_, fun s a t hs hw _ hst ↦ ?_⟩
    · cases hstage : s.stage with
      | call => exact ⟨.poll, hstage⟩
      | polling => exact ⟨.step, hstage⟩
      | parked => exact ⟨.park, hstage⟩
      | returned val => exact absurd hstage (h.2 val)
    · exact waiting_of_move (sound_of_reachable hs) hw (move_of_step hst)
  refine hhelped.leadsTo r.obeys_true fun j ↦ ?_
  cases j with
  | poll => exact served_poll hfair
  | step => exact served_step hfair
  | park => exact served_park hfair

/-- **`block_on` returns**, in a fair run, once the task has a result or has been cancelled. What it
returns is the outcome of the task. -/
theorem returns_of_fair (r : (machine V P).Run) (hfair : Fair r) (n : ℕ)
    (h : (∃ val, (r.state n).task.shared.inner = .ret val) ∨
      (r.state n).task.shared.state = .cancelled) :
    ∃ k val, n ≤ k ∧ (r.state k).stage = .returned val ∧
      phase (r.state k).task.shared.trace = some (.gone val) := by
  -- a cancelled task gets its result from the worker that processes the cancellation
  obtain ⟨l, hl, hret⟩ : ∃ l, n ≤ l ∧ ∃ val, (r.state l).task.shared.inner = .ret val := by
    rcases h with h | h
    · exact ⟨n, le_rfl, h⟩
    · obtain ⟨l, hl, hcompleted⟩ := leadsTo_completed (fair_task hfair) n h
      have hm := (coherent_of_reachable (reachable_task (r.reachable l))).1
      exact ⟨l, hl, inner_ne_future.1 (hm.completed hcompleted)⟩
  obtain ⟨k, hk, val, hval⟩ : ∃ k, l ≤ k ∧ ∃ val, (r.state k).stage = .returned val := by
    by_cases hreturned : ∃ val, (r.state l).stage = .returned val
    · exact ⟨l, le_rfl, hreturned⟩
    · refine leadsTo_returned hfair l ⟨inner_ne_future.2 hret, fun val hval ↦ ?_⟩
      exact hreturned ⟨val, hval⟩
  refine ⟨k, val, hl.trans hk, hval, ?_⟩
  obtain ⟨hF, -⟩ := faithful_of_reachable (reachable_task (r.reachable k))
  exact hF.taken val (hF.joined val ((sound_of_reachable (r.reachable k)).returned val hval))

/-- The loop polls, gets `Pending` and parks; worker 0 polls the future to its end and wakes; the
loop polls again. -/
def parkedOnce : List (Action ℕ Unit) :=
  .poll :: List.replicate 7 .step ++
    [.task (.waker 0) .enqueueGlobal, .task (.worker 0) .refill, .task (.worker 0) .dequeue,
      .task (.worker 0) .step, .task (.worker 0) .step, .task (.worker 0) .step,
      .task (.worker 0) (.outcome (.ready 5)), .task (.worker 0) .step, .task (.worker 0) .step,
      .task (.worker 0) .step, .park, .poll, .step, .step, .step]

def beforeLoop : State ℕ Unit := ⟨.new, false, .call⟩

def afterLoop : State ℕ Unit := ((machine ℕ Unit).exec beforeLoop parkedOnce).get (by decide)

theorem init_beforeLoop : (machine ℕ Unit).init beforeLoop := ⟨rfl, rfl⟩

theorem exec_parkedOnce : (machine ℕ Unit).exec beforeLoop parkedOnce = some afterLoop :=
  (Option.some_get _).symm

theorem blocks_afterLoop : afterLoop.stage = .returned (.ok 5) ∧ Blocks afterLoop :=
  ⟨rfl, blocks_of_reachable afterLoop (.of_exec (.init init_beforeLoop) exec_parkedOnce)⟩

def parkedRun : (machine ℕ Unit).Run := .ofExec init_beforeLoop exec_parkedOnce

/-- Nothing is left to do when the loop has returned. -/
theorem fair_parkedRun : Fair parkedRun := by
  have hexec := (refines ℕ Unit).exec exec_parkedOnce
  have hpc (i : Agent) : afterLoop.task.pc i = .idle := by
    refine System.forall_pc_of_exec (Q := fun _ p ↦ p = .idle) hexec (fun i hi ↦ ?_) ?_ i
    · have hne : i ≠ .waker 0 := by
        rintro rfl
        exact hi (by decide)
      simp [refines, beforeLoop, State.new, hne]
    · intro a ha
      have hi : a.1 = .joiner ∨ a.1 = .waker 0 ∨ a.1 = .worker 0 := by
        revert a
        decide
      rcases hi with h | h | h <;> rw [h] <;> rfl
  have hlocals (w : ℕ) : afterLoop.task.shared.locals w = 0 := by
    have heq : afterLoop.task.shared.locals =
        Function.update (Function.update (fun _ ↦ 0) 0 1) 0 0 := rfl
    by_cases hw : w = 0 <;> simp [heq, hw]
  refine fun j ↦ stronglyFair_ofExec init_beforeLoop exec_parkedOnce ?_
  rintro ⟨a, t, ha, hat⟩
  have hreturned : afterLoop.stage = .returned (.ok 5) := rfl
  cases j with
  | task j =>
    obtain ⟨b, hab, hb⟩ := ha
    have hadvance := advance_of_step hat
    rw [hab] at hadvance
    exact not_enabled_of_idle hpc rfl hlocals j ⟨b, t.task, hb, hadvance⟩
  | poll =>
    cases ha
    cases hat
  | park =>
    cases ha
    cases hat

/-- When the poll of the future has returned, the thread sleeps without its token. -/
theorem returns_parkedRun : (parkedRun.state 15).token = false ∧
    ∃ k val, 15 ≤ k ∧ (parkedRun.state k).stage = .returned val ∧
      phase (parkedRun.state k).task.shared.trace = some (.gone val) :=
  ⟨rfl, returns_of_fair parkedRun fair_parkedRun 15 (.inl ⟨.ok 5, rfl⟩)⟩

end ArcDischarge.BlockOn
