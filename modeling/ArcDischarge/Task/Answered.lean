import ArcDischarge.Task.Progress
import ArcDischarge.Task.Tokens

/-!
# Every notification is answered by a poll

A spawn or a wake sets `notified`, and only the start of a poll clears it. In a fair run it is
cleared, unless the future is gone by then. The proof follows the state byte. A poll that was
running when the notification came ends (`leadsTo_closed`). Then the state is `IDLE` and the carrier
brings the task to a worker, which wins or finds that another one has won
(`leadsTo_won`). Whoever has won starts a poll (`leadsTo_polled`). A cancellation may cut in at any
point, and then the future goes.
-/

namespace ArcDischarge.Task

open Machine Run

variable {V P W : Type*} {r : (machine V P W).Run} {c : State V P W} {m m' : Shared V P W}
  {p p' : Pc V P W} {a : Label V P W} {i : Agent}

/-- A notification that no poll has answered yet. -/
def Due (m : Shared V P W) : Prop := m.inner = .future ∧ m.notified = true

/-- A poll has started since, or there is nothing to poll any more. -/
def Answered (m : Shared V P W) : Prop := m.notified = false ∨ ∃ val, m.inner = .ret val

theorem due_or_answered (m : Shared V P W) : Due m ∨ Answered m := by
  by_cases hinner : m.inner = .future
  · cases hnotified : m.notified with
    | true => exact Or.inl ⟨hinner, hnotified⟩
    | false => exact Or.inr (Or.inl hnotified)
  · exact Or.inr (Or.inr (inner_ne_future.1 hinner))

/-- A poll owner before the start of its poll. -/
def Pc.starting : Pc V P W → Prop
  | .lock | .enter => True
  | _ => False

/-- A poll owner after the start of its poll, up to its closing update. -/
def Pc.closing : Pc V P W → Prop
  | .polling | .unlockPending | .close => True
  | _ => False

/-! ## From the win to the poll -/

def Pc.toPoll : Pc V P W → ℕ
  | .lock => 1
  | _ => 0

theorem Move.polled {w : ℕ} (h : Move m (.worker w) p a m' p') (hp : p.starting) (hdue : Due m) :
    Answered m' ∨ p'.starting ∧ p'.toPoll < p.toPoll := by
  cases h with
  | lock => exact Or.inr ⟨trivial, Nat.zero_lt_one⟩
  | enter => exact Or.inl (Or.inl rfl)
  | enterReturn h => cases h.symm.trans hdue.1
  | _ => exact absurd hp id

/-- A poll owner starts its poll. -/
theorem leadsTo_polled (hfair : Fair r) (w : ℕ) :
    r.LeadsTo (fun c ↦ Due c.shared ∧ (c.pc (.worker w)).starting) fun c ↦ Answered c.shared := by
  have hserved : r.Served (Turn.own (.worker w)).takes
      fun c ↦ Due c.shared ∧ (c.pc (.worker w)).starting := by
    refine served_own hfair fun c _ h hidle ↦ ?_
    rw [hidle] at h
    exact h.2
  refine System.leadsTo_of_agent (i := .worker w) Pc.toPoll hserved (fun _ h ↦ h.1) ?_ ?_
  · rintro c a m p hc ⟨hdue, hp⟩ hs
    have hmove := move_of_step (i := .worker w) hs
    rcases due_or_answered m with hdue' | h
    · rcases hmove.polled hp hdue with h | ⟨hp', hlt⟩
      · exact Or.inl h
      · exact Or.inr ⟨⟨hdue', by simpa using hp'⟩, Or.inl hlt⟩
    · exact Or.inl h
  · rintro c j a m p hc ⟨hdue, hp⟩ hj hs
    rcases due_or_answered m with hdue' | h
    · exact Or.inr ⟨hdue', by simpa [hj.symm] using hp⟩
    · exact Or.inl h

/-! ## From the queue to the win -/

/-- `IDLE`, with a notification to answer. -/
def Open (c : State V P W) : Prop := c.shared.state = .idle ∧ Due c.shared

/-- A poll has been won, or the task has been cancelled, or there is nothing to answer any more. -/
def Passed (c : State V P W) : Prop :=
  Answered c.shared ∨ c.shared.state = .cancelled ∨
    Due c.shared ∧ ∃ w, (c.pc (.worker w)).starting

theorem Move.open_or_passed (hp : Ok i m p) (h : Move m i p a m' p') (hstate : m.state = .idle) :
    m'.state = .idle ∨ m'.state = .cancelled ∨ (∃ val, m'.inner = .ret val) ∨
      (∃ w, i = .worker w) ∧ p'.starting := by
  have hknows := hp.knows
  cases h with
  | win => exact Or.inr (Or.inr (Or.inr ⟨⟨_, rfl⟩, trivial⟩))
  | cancelUpdate => exact Or.inr (Or.inl rfl)
  | store => exact Or.inr (Or.inr (Or.inl (inner_ne_future.1 hknows)))
  | cancelStore => exact Or.inr (Or.inr (Or.inl (inner_ne_future.1 hknows.2)))
  | notify h => cases hstate.symm.trans h
  | close h | closeNotified h => exact Or.inl rfl
  | _ => exact Or.inl hstate

theorem unless_open : (machine V P W).Unless Open Passed := by
  rintro c ⟨i, a⟩ d hc ⟨hstate, hdue⟩ hcd
  obtain ⟨m, p, hs, rfl⟩ := System.machine_step_eq_some.mp hcd
  rcases due_or_answered m with hdue' | h
  swap
  · exact Or.inr (Or.inl h)
  have hmove := move_of_step hs
  rcases hmove.open_or_passed ((coherent_of_reachable hc).2 i) hstate with
    h | h | h | ⟨⟨w, rfl⟩, h⟩
  · exact Or.inl ⟨h, hdue'⟩
  · exact Or.inr (Or.inr (Or.inl h))
  · exact Or.inr (Or.inl (Or.inr h))
  · exact Or.inr (Or.inr (Or.inr ⟨hdue', w, by simpa using h⟩))

/-- How far a worker is from the win. -/
def Pc.toWin : Pc V P W → ℕ
  | .requeue => 3
  | .idle => 2
  | .run => 1
  | _ => 0

/-- A worker that is about to try for the win. -/
def Tries (w : ℕ) (m : Shared V P W) (p : Pc V P W) : Prop := 0 < m.locals w ∨ p = .run

/-- In `IDLE` a worker that has the task in its queue, or in its hands, gets on to the win. -/
theorem Move.tries {w : ℕ} (hm : Coherent m) (hp : Ok (.worker w) m p)
    (h : Move m (.worker w) p a m' p') (hstate : m.state = .idle) (htries : Tries w m p) :
    p'.starting ∨ Tries w m' p' ∧
      (p'.toWin < p.toWin ∨ p'.toWin = p.toWin ∧ ¬a.goesOn) := by
  have howns := hp.owns w rfl
  have hnone : ¬p.owns := fun h ↦ by
    rw [howns, hm.idle hstate] at h
    cases h
  have hknows := hp.knows
  cases h with
  | refill => exact Or.inr ⟨Or.inl (by simp), Or.inr ⟨rfl, id⟩⟩
  | dequeue => exact Or.inr ⟨Or.inr rfl, Or.inl (by simp [Pc.toWin])⟩
  | win => exact Or.inl trivial
  | requeue => exact Or.inr ⟨htries.imp_right (by simp), Or.inl (by simp [Pc.toWin])⟩
  | notify h | runCancelled h => cases hstate.symm.trans h
  | runNothing h => rcases h with h | h <;> cases hstate.symm.trans h
  | unlockReady | wakeReady | cancelUnlock | cancelWake => cases hstate.symm.trans hknows
  | cancelLock => exact absurd hknows (by simp [Knows, hstate, Status.ended])
  | abort | abortNothing | cancelStore =>
    exact absurd hknows.1 (by simp [hstate, Status.ended])
  | _ => exact absurd trivial hnone

theorem leadsTo_passed_of_tries (hfair : Fair r) (w : ℕ) :
    r.LeadsTo (fun c ↦ Open c ∧ Tries w c.shared (c.pc (.worker w))) Passed := by
  refine System.leadsTo_of_agent (i := .worker w) Pc.toWin
    (served_worker hfair fun c _ h ↦ ?_) (fun _ h ↦ h.1) ?_ ?_
  · exact h.2.symm.imp (fun hrun ↦ by simp [hrun]) id
  · rintro c a m p hc ⟨hopen, htries⟩ hs
    have hmove := move_of_step (i := .worker w) hs
    obtain ⟨hm, hp⟩ := coherent_of_reachable hc
    rcases System.unless_step unless_open hc hopen hs with hopen' | h
    swap
    · exact Or.inl h
    rcases hmove.tries hm (hp _) hopen.1 htries with h | ⟨h, hlt⟩
    · exact Or.inl (Or.inr (Or.inr ⟨hopen'.2, w, by simpa using h⟩))
    · refine Or.inr ⟨⟨hopen', by simpa using h⟩, hlt.imp_right (And.imp_right ?_)⟩
      exact fun hnot ha ↦ hnot ha.2
  · rintro c j a m p hc ⟨hopen, htries⟩ hj hs
    rcases System.unless_step unless_open hc hopen hs with hopen' | h
    · refine Or.inr ⟨hopen', ?_⟩
      simp only [Function.update_of_ne hj.symm]
      exact htries.imp_left fun h ↦ h.trans_le ((move_of_step hs).locals_le hj)
    · exact Or.inl h

/-- In `IDLE` nobody is on the way to a shutdown. -/
theorem eq_run_of_carries (hp : Ok i m p) (hstate : m.state = .idle) (hcarries : p.carries)
    (hhand : ¬p.inHand) : p = .run := by
  have hknows := hp.knows
  cases p with
  | run => rfl
  | enqueue | cancelSchedule | requeue => exact absurd trivial hhand
  | cancelLock => exact absurd hknows (by simp [Knows, hstate, Status.ended])
  | cancelSet | cancelStore => exact absurd hknows.1 (by simp [hstate, Status.ended])
  | cancelUnlock | cancelWake => cases hstate.symm.trans hknows
  | _ => exact absurd hcarries id

/-- **The carrier of a notification brings the task to a worker that wins**, if nobody else does. -/
theorem leadsTo_won (hfair : Fair r) : r.LeadsTo Open Passed := by
  have hlocal : r.LeadsTo (fun c ↦ Passed c ∨ ∃ w, Open c ∧ 0 < c.shared.locals w) Passed := by
    rintro n (hn | ⟨w, hopen, hw⟩)
    · exact ⟨n, le_rfl, hn⟩
    · exact leadsTo_passed_of_tries hfair w n ⟨hopen, Or.inl hw⟩
  intro n hn
  have hr := r.reachable n
  obtain ⟨hm, hp⟩ := coherent_of_reachable hr
  have hnone := hm.idle hn.1
  have hnotOwns (w : ℕ) : ¬((r.state n).pc (.worker w)).owns := fun hw ↦ by
    have howner := ((hp (.worker w)).owns w rfl).mp hw
    rw [hnone] at howner
    cases howner
  have hqueued (h : Queued (r.state n).shared) :=
    (leadsTo_local hfair unless_open).trans hlocal n ⟨hn, h⟩
  have hD := duty_of_reachable hr
  cases hsince : (r.state n).shared.sinceWin with
  | false =>
    -- the win that answers the notification would have an owner
    obtain ⟨w, hw⟩ := hD.won hn.2.1 hn.2.2 hsince
    refine absurd ?_ (hnotOwns w)
    rcases hw with hw | hw <;> rw [hw] <;> trivial
  | true =>
    rcases hD.woken hn.2.1 hsince with h | h | ⟨i, hi⟩ | ⟨-, w, hw⟩
    · exact hqueued (Or.inl h)
    · exact hqueued (Or.inr h)
    · by_cases hhand : ((r.state n).pc i).inHand
      · exact (leadsTo_local_of_inHand hfair unless_open i).trans hlocal n ⟨hn, hhand⟩
      · have hrun := eq_run_of_carries (hp i) hn.1 hi hhand
        have hmay := mayBe_of_reachable hr i
        rw [hrun] at hmay
        cases i with
        | worker w => exact leadsTo_passed_of_tries hfair w n ⟨hn, Or.inr hrun⟩
        | waker | canceller => simp [Agent.mayBe] at hmay
        | joiner => exact absurd hmay id
    · exact absurd hw (hnotOwns w)

/-! ## A poll under way ends -/

def Pc.toClose : Pc V P W → ℕ
  | .polling => 2
  | .unlockPending => 1
  | _ => 0

theorem Move.closed {w : ℕ} (hm : Coherent m) (h : Move m (.worker w) p a m' p')
    (hp : p.closing) :
    m'.state = .idle ∨ m'.state = .cancelled ∨ (∃ val, m'.inner = .ret val) ∨
      p'.closing ∧ p'.toClose < p.toClose := by
  cases h with
  | pending | unlockPending =>
    exact Or.inr (Or.inr (Or.inr ⟨trivial, by simp [Pc.toClose]⟩))
  | @finish _ o val h => exact Or.inr (Or.inr (Or.inl ⟨val, rfl⟩))
  | close | closeNotified => exact Or.inl rfl
  | closeCancelled h => exact Or.inr (Or.inl h)
  | closeNothing h =>
    rcases h with h | h
    · exact Or.inl h
    · exact Or.inr (Or.inr (Or.inl (inner_ne_future.1 (hm.completed h))))
  | _ => exact absurd hp id

theorem leadsTo_closed (hfair : Fair r) (w : ℕ) :
    r.LeadsTo (fun c ↦ Due c.shared ∧ (c.pc (.worker w)).closing)
      fun c ↦ Answered c.shared ∨ c.shared.state = .cancelled ∨ Open c := by
  have hserved : r.Served (Turn.own (.worker w)).takes
      fun c ↦ Due c.shared ∧ (c.pc (.worker w)).closing := by
    refine served_own hfair fun c _ h hidle ↦ ?_
    rw [hidle] at h
    exact h.2
  refine System.leadsTo_of_agent (i := .worker w) Pc.toClose hserved (fun _ h ↦ h.1) ?_ ?_
  · rintro c a m p hc ⟨hdue, hp⟩ hs
    rcases due_or_answered m with hdue' | h
    swap
    · exact Or.inl (Or.inl h)
    rcases (move_of_step (i := .worker w) hs).closed (coherent_of_reachable hc).1 hp with
      h | h | h | ⟨h, hlt⟩
    · exact Or.inl (Or.inr (Or.inr ⟨h, hdue'⟩))
    · exact Or.inl (Or.inr (Or.inl h))
    · exact Or.inl (Or.inl (Or.inr h))
    · exact Or.inr ⟨⟨hdue', by simpa using h⟩, Or.inl hlt⟩
  · rintro c j a m p hc ⟨hdue, hp⟩ hj hs
    rcases due_or_answered m with hdue' | h
    · exact Or.inr ⟨hdue', by simpa [hj.symm] using hp⟩
    · exact Or.inl (Or.inl h)

/-! ## Together -/

theorem leadsTo_answered_of_cancelled (hfair : Fair r) :
    r.LeadsTo (fun c ↦ c.shared.state = .cancelled) fun c ↦ Answered c.shared := by
  refine (leadsTo_completed hfair).trans (.of_imp fun c hc h ↦ Or.inr ?_)
  exact inner_ne_future.1 ((coherent_of_reachable hc).1.completed h)

theorem leadsTo_answered_of_open (hfair : Fair r) :
    r.LeadsTo Open fun c ↦ Answered c.shared := by
  refine (leadsTo_won hfair).trans ?_
  rintro n (h | h | ⟨hdue, w, hw⟩)
  · exact ⟨n, le_rfl, h⟩
  · exact leadsTo_answered_of_cancelled hfair n h
  · exact leadsTo_polled hfair w n ⟨hdue, hw⟩

theorem leadsTo_answered_of_closing (hfair : Fair r) (w : ℕ) :
    r.LeadsTo (fun c ↦ Due c.shared ∧ (c.pc (.worker w)).closing) fun c ↦ Answered c.shared := by
  refine (leadsTo_closed hfair w).trans ?_
  rintro n (h | h | h)
  · exact ⟨n, le_rfl, h⟩
  · exact leadsTo_answered_of_cancelled hfair n h
  · exact leadsTo_answered_of_open hfair n h

theorem leadsTo_answered (hfair : Fair r) :
    r.LeadsTo (fun c ↦ Due c.shared) fun c ↦ Answered c.shared := by
  intro n hdue
  obtain ⟨hm, hp⟩ := coherent_of_reachable (r.reachable n)
  have howner (hstate : (r.state n).shared.state = .running ∨
      (r.state n).shared.state = .notified) :
      ∃ k, n ≤ k ∧ Answered (r.state k).shared := by
    obtain ⟨w, hw⟩ := Option.ne_none_iff_exists'.mp (hm.running hstate)
    have howns := ((hp (.worker w)).owns w rfl).mpr hw
    have hknows := (hp (.worker w)).knows
    generalize hpc : (r.state n).pc (.worker w) = p at howns hknows
    cases p with
    | lock | enter => exact leadsTo_polled hfair w n ⟨hdue, by rw [hpc]; trivial⟩
    | polling | unlockPending | close =>
      exact leadsTo_answered_of_closing hfair w n ⟨hdue, by rw [hpc]; trivial⟩
    | store => exact absurd hdue.1 hknows
    | _ => exact absurd howns id
  cases hstate : (r.state n).shared.state with
  | idle => exact leadsTo_answered_of_open hfair n ⟨hstate, hdue⟩
  | cancelled => exact leadsTo_answered_of_cancelled hfair n hstate
  | completed => exact absurd hdue.1 (hm.completed hstate)
  | running => exact howner (Or.inl hstate)
  | notified => exact howner (Or.inr hstate)

/-- The notification that was there after `n` polls is still there, or a poll has begun since. -/
def Since (n : ℕ) (m : Shared V P W) : Prop :=
  m.notified = true ∧ n ≤ polls m.trace ∨ n < polls m.trace

theorem Since.move {n : ℕ} (hpolls : Since n m) (h : Move m i p a m' p') : Since n m' := by
  cases h with
  | enter =>
    rw [Since, polls_append_singleton]
    refine Or.inr ?_
    rcases hpolls with ⟨-, h⟩ | h <;> simp [Event.isPoll] <;> omega
  | pending | finish | abort | cancelUpdate =>
    simpa [Since, polls_append_singleton, Event.isPoll] using hpolls
  | wake => exact hpolls.imp_left fun h ↦ ⟨rfl, h.2⟩
  | _ => exact hpolls

/-- **Every notification is answered.** In a fair run a task that has been spawned or woken since
the start of its last poll is polled again, unless its future finishes or is aborted first. -/
theorem answered_of_fair (r : (machine V P W).Run) (hfair : Fair r) (n : ℕ)
    (hnotified : (r.state n).shared.notified = true) :
    ∃ k, n ≤ k ∧ (polls (r.state n).shared.trace < polls (r.state k).shared.trace ∨
      ∃ val, (r.state k).shared.inner = .ret val) := by
  obtain ⟨k, hk, hanswered⟩ : ∃ k, n ≤ k ∧ Answered (r.state k).shared := by
    rcases due_or_answered (r.state n).shared with h | h
    · exact leadsTo_answered hfair n h
    · exact ⟨n, le_rfl, h⟩
  refine ⟨k, hk, hanswered.imp_left fun hfalse ↦ ?_⟩
  have hsince := r.stable (I := fun c ↦ Since (polls (r.state n).shared.trace) c.shared) ?_ hk
    (Or.inl ⟨hnotified, le_rfl⟩)
  · refine hsince.resolve_left fun h ↦ ?_
    cases hfalse.symm.trans h.1
  · rintro c a d - hc hcd
    obtain ⟨m, p, hs, rfl⟩ := System.machine_step_eq_some.mp hcd
    exact hc.move (move_of_step hs)

/-- The task is woken while worker 0 polls it; worker 1 leaves the mark, and worker 0 requeues the
task and polls it to its end. -/
def polledTwice : List (Agent × Label ℕ Unit ℕ) :=
  [(.waker 0, .enqueueGlobal), (.worker 0, .refill), (.worker 0, .dequeue), (.worker 0, .step),
    (.worker 0, .step), (.worker 0, .step), (.waker 1, .wake), (.waker 1, .enqueueLocal 1),
    (.worker 1, .dequeue), (.worker 1, .step), (.worker 0, .outcome .pending), (.worker 0, .step),
    (.worker 0, .step), (.worker 0, .step), (.worker 0, .refill), (.worker 0, .dequeue),
    (.worker 0, .step), (.worker 0, .step), (.worker 0, .step), (.worker 0, .outcome (.ready 5)),
    (.worker 0, .step), (.worker 0, .step), (.worker 0, .step)]

def polledState : State ℕ Unit ℕ := ((machine ℕ Unit ℕ).exec .new polledTwice).get (by decide)

theorem exec_polledTwice : (machine ℕ Unit ℕ).exec .new polledTwice = some polledState :=
  (Option.some_get _).symm

def polledRun : (machine ℕ Unit ℕ).Run := .ofExec init_new exec_polledTwice

theorem fair_polledRun : Fair polledRun := by
  refine fun j ↦ stronglyFair_ofExec init_new exec_polledTwice (not_enabled_of_idle ?_ rfl ?_ j)
  · refine System.forall_pc_of_exec (Q := fun _ p ↦ p = .idle) exec_polledTwice (fun i hi ↦ ?_) ?_
    · have hne : i ≠ .waker 0 := by
        rintro rfl
        exact hi (by decide)
      simp [State.new, hne]
    · simp only [polledTwice, List.forall_mem_cons]
      refine ⟨rfl, rfl, rfl, rfl, rfl, rfl, rfl, rfl, rfl, rfl, rfl, rfl, rfl, rfl, rfl, rfl, rfl,
        rfl, rfl, rfl, rfl, rfl, rfl, by simp⟩
  · intro w
    have hlocals : polledState.shared.locals = Function.update (Function.update (Function.update
        (Function.update (Function.update (Function.update (fun _ ↦ 0) 0 1) 0 0) 1 1) 1 0) 0 1) 0 0
      := rfl
    by_cases hw : w = 0
    · simp [hlocals, hw]
    · by_cases hw' : w = 1 <;> simp [hlocals, hw, hw']

/-- After seven steps the second notification is there and the first poll still runs. -/
theorem answered_polledRun : (polledRun.state 7).shared.trace = [.polled 0] ∧
    ∃ k, 7 ≤ k ∧ (polls (polledRun.state 7).shared.trace < polls (polledRun.state k).shared.trace ∨
      ∃ val, (polledRun.state k).shared.inner = .ret val) :=
  ⟨rfl, answered_of_fair polledRun fair_polledRun 7 rfl⟩

end ArcDischarge.Task
