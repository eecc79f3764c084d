import ArcDischarge.Machine.Tokens
import ArcDischarge.Task.Coherence

/-!
# Notifications are not multiplied

A token is a notification that has not been spent: an entry of the task in a queue, an entry in the
hand of a worker or of a thread about to enqueue it, the mark `NOTIFIED`, and the requeue that the
mark turns into. A spawn and a wake bring one token each. No other step makes one as long as the
task may still be polled, and an `IDLE -> RUNNING` update spends one. A cancellation enqueues the
task once more, but then no poll is won any more.
-/

namespace ArcDischarge.Task

variable {V P W : Type*}

/-- The tokens an agent has in hand. -/
def Pc.tokens : Pc V P W → ℕ
  | .run | .requeue | .enqueue => 1
  | _ => 0

/-- The polls that an agent has won and not begun. -/
def Pc.wonPolls : Pc V P W → ℕ
  | .lock | .enter => 1
  | _ => 0

/-- The mark `NOTIFIED` is a token. -/
def Status.tokens : Status → ℕ
  | .notified => 1
  | _ => 0

/-- The tokens outside the agents' hands and the local queues. -/
def Shared.tokens (m : Shared V P W) : ℕ := m.linked.toNat + m.state.tokens

def Event.isPoll : Event V P → Bool
  | .polled _ => true
  | _ => false

/-- How often the future has been polled. -/
def polls (trace : List (Event V P)) : ℕ := trace.countP Event.isPoll

theorem polls_append_singleton (trace : List (Event V P)) (e : Event V P) :
    polls (trace ++ [e]) = polls trace + if e.isPoll then 1 else 0 := by
  rw [polls, List.countP_append, List.countP_singleton, polls]

section

variable {m m' : Shared V P W} {p p' : Pc V P W} {a : Label V P W} {i : Agent}

/-- **No step makes a token**, but a wake; and an `IDLE -> RUNNING` update spends one. A step
changes one local queue at most. -/
theorem Move.tokens (h : Move m i p a m' p') (hlive : ¬m'.state.ended)
    (hcancel : p ≠ .cancelSchedule) :
    ∃ w v, m'.locals = Function.update m.locals w v ∧
      v + p'.tokens + m'.tokens + m'.wins + m.wakes ≤
        m.locals w + p.tokens + m.tokens + m.wins + m'.wakes := by
  -- the steps that leave the local queues alone
  have hkeep (hlocals : m'.locals = m.locals)
      (hle : p'.tokens + m'.tokens + m'.wins + m.wakes ≤
        p.tokens + m.tokens + m.wins + m'.wakes) :
      ∃ w v, m'.locals = Function.update m.locals w v ∧
        v + p'.tokens + m'.tokens + m'.wins + m.wakes ≤
          m.locals w + p.tokens + m.tokens + m.wins + m'.wakes :=
    ⟨0, m.locals 0, by rw [hlocals, Function.update_eq_self], by omega⟩
  cases h with
  | @refill w h =>
    refine ⟨w, _, rfl, ?_⟩
    simp only [Pc.tokens, Shared.tokens, h, Bool.toNat_true, Bool.toNat_false]
    omega
  | @dequeue w h =>
    refine ⟨w, _, rfl, ?_⟩
    simp only [Pc.tokens, Shared.tokens]
    omega
  | @enqueueLocal k w =>
    refine ⟨w, _, rfl, ?_⟩
    simp only [Pc.tokens, Shared.tokens]
    omega
  | win h | notify h | close h | closeNotified h =>
    refine hkeep rfl ?_
    simp only [Pc.tokens, Shared.tokens, h, Status.tokens]
    omega
  | requeue | enqueueGlobal =>
    refine hkeep rfl ?_
    have := m.linked.toNat_le
    simp only [Pc.tokens, Shared.tokens, Shared.scheduleGlobal, Bool.toNat_true]
    omega
  | wake =>
    refine hkeep rfl ?_
    simp only [Pc.tokens, Shared.tokens]
    omega
  | store | cancelStore | cancelUpdate => exact absurd trivial hlive
  | cancelSchedule => exact absurd rfl hcancel
  | _ => exact hkeep rfl (by simp only [Pc.tokens, Shared.tokens, Shared.wake]; omega)

/-- A poll is begun by an agent that has won it. -/
theorem Move.polls (h : Move m i p a m' p') :
    p'.wonPolls + polls m'.trace + m.wins ≤ p.wonPolls + polls m.trace + m'.wins := by
  cases h with
  | win | enter | enterReturn | pending | finish | abort | cancelUpdate =>
    simp only [Pc.wonPolls, polls_append_singleton, Event.isPoll, if_true, Bool.false_eq_true,
      if_false]
    omega
  | _ => exact le_rfl

theorem Move.ended_of_cancelSchedule (h : Move m i p a m' p') (hp' : p' = .cancelSchedule) :
    m'.state.ended := by
  cases h with
  | cancelUpdate => trivial
  | _ => cases hp'

theorem Move.wins_le (h : Move m i p a m' p') :
    m.wakes ≤ m'.wakes ∧ (m'.wins = m.wins ∨ ¬m'.state.ended) := by
  cases h with
  | win => exact ⟨le_rfl, Or.inr id⟩
  | wake => exact ⟨Nat.le_succ _, Or.inl rfl⟩
  | _ => exact ⟨le_rfl, Or.inl rfl⟩

end

/-! ## Every run -/

/-- The tokens and the polls won so far are paid for by the spawn and the wakes. -/
structure Paid (c : State V P W) : Prop where
  wins : c.shared.wins ≤ 1 + c.shared.wakes
  tokens : ¬c.shared.state.ended → ∃ n,
    AtMost (Sum.elim (fun i ↦ (c.pc i).tokens) c.shared.locals) n ∧
      n + c.shared.tokens + c.shared.wins ≤ 1 + c.shared.wakes
  polls : ∃ n, AtMost (fun i ↦ (c.pc i).wonPolls) n ∧ n + polls c.shared.trace ≤ c.shared.wins
  cancels : ∀ i, c.pc i = .cancelSchedule → c.shared.state.ended

variable {c : State V P W} {i : Agent} {a : Label V P W} {m : Shared V P W} {p : Pc V P W}

theorem Paid.step_tokens (hI : Paid c) (h : Move c.shared i (c.pc i) a m p)
    (hlive : ¬m.state.ended) : ∃ n,
      AtMost (Sum.elim (fun j ↦ (Function.update c.pc i p j).tokens) m.locals) n ∧
        n + m.tokens + m.wins ≤ 1 + m.wakes := by
  have hlive' : ¬c.shared.state.ended := fun hended ↦ hlive (h.ended hended)
  obtain ⟨w, v, hlocals, hle⟩ := h.tokens hlive fun hp ↦ hlive' (hI.cancels i hp)
  obtain ⟨n, hn, hpaid⟩ := hI.tokens hlive'
  -- first the local queue, then the hand of the agent
  have hw : c.shared.locals w ≤ n := hn.apply_le (.inr w)
  have hqueue : AtMost (Sum.elim (fun j ↦ (c.pc j).tokens) m.locals)
      (n + v - c.shared.locals w) := by
    rw [hlocals]
    exact hn.update_right (by omega)
  have hi : (c.pc i).tokens ≤ n + v - c.shared.locals w := hqueue.apply_le (.inl i)
  refine ⟨n + v - c.shared.locals w + p.tokens - (c.pc i).tokens, hqueue.move_left ?_, ?_⟩ <;> omega

theorem Paid.step (hI : Paid c) (h : Move c.shared i (c.pc i) a m p) :
    Paid ⟨m, Function.update c.pc i p⟩ := by
  have hwins := h.wins_le
  refine ⟨?_, hI.step_tokens h, ?_, fun j hj ↦ ?_⟩
  · change m.wins ≤ 1 + m.wakes
    rcases hwins.2 with heq | hlive
    · have := hI.wins
      omega
    · obtain ⟨n, -, hpaid⟩ := hI.step_tokens h hlive
      omega
  · obtain ⟨n, hn, hpaid⟩ := hI.polls
    have hi := hn.apply_le i
    have hpolls := h.polls
    refine ⟨n + p.wonPolls - (c.pc i).wonPolls, hn.move (by omega), ?_⟩
    change _ + Task.polls m.trace ≤ m.wins
    omega
  · change Function.update c.pc i p j = .cancelSchedule at hj
    by_cases hji : j = i
    · rw [hji, Function.update_self] at hj
      exact h.ended_of_cancelSchedule hj
    · rw [Function.update_of_ne hji] at hj
      exact h.ended (hI.cancels j hj)

theorem paid_of_reachable (h : (machine V P W).Reachable c) : Paid c := by
  refine System.invariant h ?_ fun c i a m p hc hI _ hs ↦ hI.step (move_of_step hs)
  rintro _ rfl
  refine ⟨Nat.zero_le _, fun _ ↦ ⟨1, ?_, le_rfl⟩, ⟨0, ?_, le_rfl⟩, fun i hi ↦ ?_⟩
  · -- the spawner is about to enqueue the task
    have hnone : AtMost (Sum.elim (fun _ : Agent ↦ (Pc.idle : Pc V P W).tokens)
        (Shared.new : Shared V P W).locals) 0 := by
      intro s
      refine (Finset.sum_eq_zero fun x _ ↦ ?_).le
      cases x <;> rfl
    exact hnone.move_left le_rfl
  · have hnone : AtMost (fun _ : Agent ↦ (Pc.idle : Pc V P W).wonPolls) 0 := AtMost.zero
    exact hnone.move le_rfl
  · change Function.update (fun _ : Agent ↦ (Pc.idle : Pc V P W)) (.waker 0) .enqueue i =
      .cancelSchedule at hi
    by_cases hi0 : i = .waker 0
    · rw [hi0, Function.update_self] at hi
      cases hi
    · rw [Function.update_of_ne hi0] at hi
      cases hi

/-- What the queues may do to the notifications of a task. -/
structure NotMultiplied (m : Shared V P W) : Prop where
  /-- A poll is won for the spawn or for a wake. -/
  wins : m.wins ≤ 1 + m.wakes
  /-- The future is polled by whoever has won. -/
  polls : polls m.trace ≤ m.wins

/-- **Notifications are not multiplied**, however the entries of the task are duplicated in local
queues, coalesced in the global one, or turned into `NOTIFIED` and requeued. -/
theorem notMultiplied_of_reachable (c : State V P W) (h : (machine V P W).Reachable c) :
    NotMultiplied c.shared := by
  have hpaid := paid_of_reachable h
  obtain ⟨n, -, hpolls⟩ := hpaid.polls
  exact ⟨hpaid.wins, by omega⟩

/-- The task is spawned and polled, woken during the poll, found running by worker 1, requeued, and
polled once more. -/
def requeuedAndPolled : List (Agent × Label ℕ Unit ℕ) :=
  [(.waker 0, .enqueueGlobal), (.worker 0, .refill), (.worker 0, .dequeue), (.worker 0, .step),
    (.worker 0, .step), (.worker 0, .step), (.waker 1, .wake), (.waker 1, .enqueueLocal 1),
    (.worker 1, .dequeue), (.worker 1, .step), (.worker 0, .outcome .pending), (.worker 0, .step),
    (.worker 0, .step), (.worker 0, .step), (.worker 1, .refill), (.worker 1, .dequeue),
    (.worker 1, .step), (.worker 1, .step), (.worker 1, .step)]

theorem notMultiplied_requeuedAndPolled : ∃ c, (machine ℕ Unit ℕ).Reachable c ∧
    c.shared.wins = 2 ∧ c.shared.wakes = 1 ∧ polls c.shared.trace = 2 ∧
    NotMultiplied c.shared := by
  have hr := Machine.ReachableUnder.of_isSome_exec (m := machine ℕ Unit ℕ)
    (G := fun _ _ ↦ True) (.init rfl) requeuedAndPolled (by decide) (by decide)
  exact ⟨_, hr, by decide, by decide, by decide, notMultiplied_of_reachable _ hr⟩

end ArcDischarge.Task
