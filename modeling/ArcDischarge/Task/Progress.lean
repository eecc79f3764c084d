import ArcDischarge.Task.Carrier
import ArcDischarge.Task.Turns

/-!
# Notifications and cancellations take effect

The carrier that a notified or cancelled task always has (`Task/Carrier`) gets on in a fair run. An
agent with the task in hand puts it into a queue; an entry of the global queue moves to a local one;
the worker of that queue takes it and runs it. What then happens depends on the state byte. In
`IDLE` the worker wins and polls. In `RUNNING` it leaves a mark, and the poll owner requeues the
task when it closes. In `CANCELLED` it aborts the future.

Nothing in this goes round in a circle: a poll that was running when the notification came ends
once, and whoever wins the next one answers the notification.
-/

namespace ArcDischarge.Task

open Machine Run

variable {V P W : Type*} {r : (machine V P W).Run} {c : State V P W} {m m' : Shared V P W}
  {p p' : Pc V P W} {a : Label V P W} {i : Agent}

/-! ## An entry moves on -/

/-- About to put the task into a queue. -/
def Pc.inHand : Pc V P W → Prop
  | .enqueue | .cancelSchedule | .requeue => True
  | _ => False

/-- The task is in a queue. -/
def Queued (m : Shared V P W) : Prop := m.linked = true ∨ ∃ w, 0 < m.locals w

theorem Move.queued_of_inHand (h : Move m i p a m' p') (hp : p.inHand) : Queued m' := by
  cases h with
  | requeue | enqueueGlobal | cancelSchedule => exact Or.inl rfl
  | @enqueueLocal k w => exact Or.inr ⟨w, by simp⟩
  | _ => exact absurd hp id

/-- An entry of a local queue is taken out by its worker only. -/
theorem Move.locals_le {w : ℕ} (h : Move m i p a m' p') (hi : i ≠ .worker w) :
    m.locals w ≤ m'.locals w := by
  cases h with
  | @refill v =>
    have hv : w ≠ v := fun hv ↦ hi (by rw [hv])
    simp [hv]
  | @dequeue v =>
    have hv : w ≠ v := fun hv ↦ hi (by rw [hv])
    simp [hv]
  | @enqueueLocal k v =>
    by_cases hv : w = v
    · subst hv
      simp
    · simp [hv]
  | _ => exact le_rfl

/-- The task stays in the global queue until some worker refills from it. -/
theorem Move.linked (h : Move m i p a m' p') (hlinked : m.linked = true) :
    m'.linked = true ∧ a ≠ .refill ∨ ∃ w, 0 < m'.locals w := by
  cases h with
  | @refill w => exact Or.inr ⟨w, by simp⟩
  | requeue | enqueueGlobal | cancelSchedule => exact Or.inl ⟨rfl, by simp⟩
  | _ => exact Or.inl ⟨hlinked, by simp⟩

section

variable {F E : State V P W → Prop}

/-- As long as `F` lasts, what an agent has in hand gets into a queue. -/
theorem leadsTo_queued (hfair : Fair r) (hF : (machine V P W).Unless F E) (i : Agent) :
    r.LeadsTo (fun c ↦ F c ∧ (c.pc i).inHand) fun c ↦ E c ∨ F c ∧ Queued c.shared := by
  have hserved : r.Served (Turn.own i).takes fun c ↦ F c ∧ (c.pc i).inHand := by
    refine served_own hfair fun c _ h hidle ↦ ?_
    rw [hidle] at h
    exact h.2
  refine System.leadsTo_of_agent (fun _ ↦ 0) hserved (fun _ h ↦ h.1) ?_ ?_
  · rintro c a m p hc ⟨hFc, hp⟩ hs
    have hqueued := (move_of_step hs).queued_of_inHand hp
    rcases System.unless_step hF hc hFc hs with h | h
    · exact Or.inl (Or.inr ⟨h, hqueued⟩)
    · exact Or.inl (Or.inl h)
  · rintro c j a m p hc ⟨hFc, hp⟩ hj hs
    rcases System.unless_step hF hc hFc hs with h | h
    · exact Or.inr ⟨h, by simpa [hj.symm] using hp⟩
    · exact Or.inl (Or.inl h)

/-- As long as `F` lasts, an entry of the global queue gets into a local one. -/
theorem leadsTo_local (hfair : Fair r) (hF : (machine V P W).Unless F E) :
    r.LeadsTo (fun c ↦ F c ∧ Queued c.shared) fun c ↦ E c ∨ ∃ w, F c ∧ 0 < c.shared.locals w := by
  have hlinked : r.LeadsTo (fun c ↦ F c ∧ c.shared.linked = true) fun c ↦
      E c ∨ ∃ w, F c ∧ 0 < c.shared.locals w := by
    have hserved : r.Served Turn.refill.takes fun c ↦ F c ∧ c.shared.linked = true :=
      (hfair .refill).weaklyFair.served fun c hc h ↦ enabled_refill hc h.2
    refine hserved.leadsTo (fun _ ↦ 0) ?_
    rintro c ⟨j, a⟩ d hc ⟨hFc, hlinked⟩ hcd
    rcases hF c (j, a) d hc hFc hcd with h | h
    · obtain ⟨m, p, hs, rfl⟩ := System.machine_step_eq_some.mp hcd
      rcases (move_of_step hs).linked hlinked with ⟨hlinked', ha⟩ | ⟨w, hw⟩
      · exact Or.inr ⟨⟨h, hlinked'⟩, Or.inr ⟨rfl, ha⟩⟩
      · exact Or.inl (Or.inr ⟨w, h, hw⟩)
    · exact Or.inl (Or.inl h)
  intro n hn
  rcases hn.2 with h | ⟨w, hw⟩
  · exact hlinked n ⟨hn.1, h⟩
  · exact ⟨n, le_rfl, Or.inr ⟨w, hn.1, hw⟩⟩

/-- From the agent that has the task in hand to the worker that has it in its queue. -/
theorem leadsTo_local_of_inHand (hfair : Fair r) (hF : (machine V P W).Unless F E) (i : Agent) :
    r.LeadsTo (fun c ↦ F c ∧ (c.pc i).inHand) fun c ↦
      E c ∨ ∃ w, F c ∧ 0 < c.shared.locals w := by
  intro n hn
  obtain ⟨k, hk, hE | hq⟩ := leadsTo_queued hfair hF i n hn
  · exact ⟨k, hk, Or.inl hE⟩
  · obtain ⟨l, hl, h⟩ := leadsTo_local hfair hF k hq
    exact ⟨l, hk.trans hl, h⟩

end

/-! ## A cancellation takes effect -/

/-- How far a worker is from shutting a cancelled task down. -/
def Pc.toCancel : Pc V P W → ℕ
  | .requeue => 12
  | .idle => 11
  | .run => 10
  | .lock => 9
  | .enter => 8
  | .polling => 7
  | .unlockPending => 6
  | .close => 5
  | .cancelLock => 4
  | .cancelSet => 3
  | .cancelStore _ | .store => 2
  | _ => 0

/-- A worker that will shut the task down: it has it in its local queue, or in its hands. -/
def Ends (w : ℕ) (m : Shared V P W) (p : Pc V P W) : Prop :=
  0 < m.locals w ∨ p ≠ .idle ∧ p ≠ .requeue

theorem Ends.of_holds {w : ℕ} (hp : p.holds) : Ends w m p := by
  refine Or.inr ⟨?_, ?_⟩ <;> rintro rfl <;> exact hp

theorem Ends.of_owns {w : ℕ} (hp : p.owns) : Ends w m p := by
  refine Or.inr ⟨?_, ?_⟩ <;> rintro rfl <;> exact hp

/-- A carrier with nothing to enqueue is a worker on its way to the shutdown. -/
theorem ends_of_carries (hmay : i.mayBe p) (hp : p.carries) (hhand : ¬p.inHand) :
    ∃ w, i = .worker w ∧ Ends w m p := by
  have hne : p ≠ .idle ∧ p ≠ .requeue := by
    constructor <;> rintro rfl
    · exact hp
    · exact hhand trivial
  cases i with
  | worker w => exact ⟨w, rfl, Or.inr hne⟩
  | waker => cases p <;> simp [Agent.mayBe, Pc.carries, Pc.inHand] at hmay hp hhand
  | canceller => cases p <;> simp [Agent.mayBe, Pc.carries, Pc.inHand] at hmay hp hhand
  | joiner => cases p <;> simp [Agent.mayBe, Pc.carries] at hmay hp

/-- A worker gets on with a cancelled task. -/
theorem Move.ends_own {w : ℕ} (hp : Ok (.worker w) m p) (h : Move m (.worker w) p a m' p')
    (hstate : m.state = .cancelled) (hends : Ends w m p) :
    m'.state = .completed ∨ Ends w m' p' ∧
      (p'.toCancel < p.toCancel ∨ p'.toCancel = p.toCancel ∧ ¬a.goesOn) := by
  have hknows := hp.knows
  cases h with
  | refill => exact Or.inr ⟨Or.inl (by simp), Or.inr ⟨rfl, id⟩⟩
  | store | cancelStore => exact Or.inl rfl
  | requeue => exact Or.inr ⟨hends.imp_right (by simp), Or.inl (by simp [Pc.toCancel])⟩
  | win h | notify h | close h | closeNotified h => cases hstate.symm.trans h
  | runNothing h | closeNothing h => rcases h with h | h <;> cases hstate.symm.trans h
  | unlockReady | wakeReady | cancelUnlock | cancelWake => exact Or.inl hknows
  | _ => exact Or.inr ⟨Or.inr ⟨by simp, by simp⟩, Or.inl (by simp [Pc.toCancel])⟩

theorem leadsTo_completed_of_ends (hfair : Fair r) (w : ℕ) :
    r.LeadsTo (fun c ↦ c.shared.state = .cancelled ∧ Ends w c.shared (c.pc (.worker w)))
      fun c ↦ c.shared.state = .completed := by
  refine System.leadsTo_of_agent (i := .worker w) Pc.toCancel
    (served_worker hfair fun c _ h ↦ ?_) (fun _ h ↦ h.1) ?_ ?_
  · exact h.2.symm.imp And.left id
  · rintro c a m p hc ⟨hstate, hends⟩ hs
    have hmove := move_of_step (i := .worker w) hs
    rcases hmove.ends_own ((coherent_of_reachable hc).2 _) hstate hends with h | ⟨h, hlt⟩
    · exact Or.inl h
    · rcases hmove.ends.2 hstate with hstate' | hstate'
      · refine Or.inr ⟨⟨hstate', by simpa using h⟩, hlt.imp_right (And.imp_right ?_)⟩
        exact fun hnot ha ↦ hnot ha.2
      · exact Or.inl hstate'
  · rintro c j a m p hc ⟨hstate, hends⟩ hj hs
    have hmove := move_of_step hs
    rcases hmove.ends.2 hstate with hstate' | hstate'
    · refine Or.inr ⟨hstate', ?_⟩
      simp only [Function.update_of_ne hj.symm]
      exact hends.imp_left fun h ↦ h.trans_le (hmove.locals_le hj)
    · exact Or.inl hstate'

theorem unless_cancelled : (machine V P W).Unless (fun c ↦ c.shared.state = .cancelled)
    fun c ↦ c.shared.state = .completed := by
  intro c a d _ hstate hcd
  obtain ⟨m, p, hs, rfl⟩ := System.machine_step_eq_some.mp hcd
  exact (move_of_step hs).ends.2 hstate

/-- A cancelled task whose result is there is about to be `COMPLETED`. -/
theorem exists_ends (h : (machine V P W).Reachable c) (hstate : c.shared.state = .cancelled)
    (hinner : c.shared.inner ≠ .future) : ∃ w, Ends w c.shared (c.pc (.worker w)) := by
  obtain ⟨hm, hp⟩ := coherent_of_reachable h
  have hlock : c.shared.lock ≠ none := fun hnone ↦ by
    rcases hm.free hnone with h | h
    · exact hinner h
    · cases hstate.symm.trans h
  obtain ⟨i, hi⟩ := Option.ne_none_iff_exists'.mp hlock
  have hholds := (hp i).holds.mpr hi
  have hknows := (hp i).knows
  have hmay := mayBe_of_reachable h i
  cases i with
  | worker w => exact ⟨w, .of_holds hholds⟩
  | joiner =>
    -- the joiner has seen a result only if the state was `COMPLETED` already
    generalize c.pc .joiner = p at hholds hknows hmay
    cases p with
    | take | takeUnlock =>
      rcases hknows with h | h
      · exact absurd h hinner
      · cases hstate.symm.trans h
    | _ => simp [Agent.mayBe, Pc.holds] at hmay hholds
  | waker k =>
    generalize c.pc (.waker k) = p at hholds hmay
    cases p <;> simp [Agent.mayBe, Pc.holds] at hmay hholds
  | canceller k =>
    generalize c.pc (.canceller k) = p at hholds hmay
    cases p <;> simp [Agent.mayBe, Pc.holds] at hmay hholds

/-- **A cancellation takes effect.** -/
theorem leadsTo_completed (hfair : Fair r) :
    r.LeadsTo (fun c ↦ c.shared.state = .cancelled) fun c ↦ c.shared.state = .completed := by
  have hlocal : r.LeadsTo (fun c ↦ c.shared.state = .completed ∨
      ∃ w, c.shared.state = .cancelled ∧ 0 < c.shared.locals w)
      fun c ↦ c.shared.state = .completed := by
    rintro n (hn | ⟨w, hstate, hw⟩)
    · exact ⟨n, le_rfl, hn⟩
    · exact leadsTo_completed_of_ends hfair w n ⟨hstate, Or.inl hw⟩
  intro n hn
  have hr := r.reachable n
  have hends (w : ℕ) (h : Ends w (r.state n).shared ((r.state n).pc (.worker w))) :=
    leadsTo_completed_of_ends hfair w n ⟨hn, h⟩
  have hqueued (h : Queued (r.state n).shared) :=
    (leadsTo_local hfair unless_cancelled).trans hlocal n ⟨hn, h⟩
  by_cases hinner : (r.state n).shared.inner = .future
  swap
  · obtain ⟨w, hw⟩ := exists_ends hr hn hinner
    exact hends w hw
  rcases (duty_of_reachable hr).cancelled hinner hn with h | h | ⟨i, hi⟩ | ⟨-, w, hw⟩
  · exact hqueued (Or.inl h)
  · exact hqueued (Or.inr h)
  · by_cases hhand : ((r.state n).pc i).inHand
    · exact (leadsTo_local_of_inHand hfair unless_cancelled i).trans hlocal n ⟨hn, hhand⟩
    · obtain ⟨w, rfl, hw⟩ := ends_of_carries (mayBe_of_reachable hr i) hi hhand
      exact hends w hw
  · exact hends w (.of_owns hw)

/-- **Every cancellation is processed.** In a fair run a task in state `CANCELLED` reaches
`COMPLETED`, with a result under its mutex. -/
theorem completed_of_fair (r : (machine V P W).Run) (hfair : Fair r) (n : ℕ)
    (hstate : (r.state n).shared.state = .cancelled) :
    ∃ k, n ≤ k ∧ (r.state k).shared.state = .completed ∧
      ∃ val, (r.state k).shared.inner = .ret val := by
  obtain ⟨k, hk, hcompleted⟩ := leadsTo_completed hfair n hstate
  have hm := (coherent_of_reachable (r.reachable k)).1
  exact ⟨k, hk, hcompleted, inner_ne_future.1 (hm.completed hcompleted)⟩

/-- The task just spawned is cancelled, and worker 0 finds it so. -/
def cancelledAtOnce : List (Agent × Label ℕ Unit ℕ) :=
  [(.waker 0, .enqueueGlobal), (.canceller 0, .cancel), (.canceller 0, .step),
    (.canceller 0, .step), (.worker 0, .refill), (.worker 0, .dequeue), (.worker 0, .step),
    (.worker 0, .step), (.worker 0, .step), (.worker 0, .step), (.worker 0, .step),
    (.worker 0, .step)]

def abortedState : State ℕ Unit ℕ := ((machine ℕ Unit ℕ).exec .new cancelledAtOnce).get (by decide)

theorem exec_cancelledAtOnce : (machine ℕ Unit ℕ).exec .new cancelledAtOnce = some abortedState :=
  (Option.some_get _).symm

/-- It is cancelled after three steps, and the run rests when it is done. -/
def cancelledRun : (machine ℕ Unit ℕ).Run := .ofExec init_new exec_cancelledAtOnce

theorem fair_cancelledRun : Fair cancelledRun := by
  refine fun j ↦ stronglyFair_ofExec init_new exec_cancelledAtOnce (not_enabled_of_idle ?_ rfl ?_ j)
  · refine System.forall_pc_of_exec (Q := fun _ p ↦ p = .idle) exec_cancelledAtOnce
      (fun i hi ↦ ?_) ?_
    · have hne : i ≠ .waker 0 := by
        rintro rfl
        exact hi (by decide)
      simp [State.new, hne]
    · simp only [cancelledAtOnce, List.forall_mem_cons]
      exact ⟨rfl, rfl, rfl, rfl, rfl, rfl, rfl, rfl, rfl, rfl, rfl, rfl, by simp⟩
  · intro w
    have hlocals : abortedState.shared.locals =
        Function.update (Function.update (fun _ ↦ 0) 0 1) 0 0 := rfl
    by_cases hw : w = 0 <;> simp [hlocals, hw]

theorem completed_cancelledRun : (cancelledRun.state 3).shared.state = .cancelled ∧
    ∃ k, 3 ≤ k ∧ (cancelledRun.state k).shared.state = .completed ∧
      ∃ val, (cancelledRun.state k).shared.inner = .ret val :=
  ⟨rfl, completed_of_fair cancelledRun fair_cancelledRun 3 rfl⟩

end ArcDischarge.Task
