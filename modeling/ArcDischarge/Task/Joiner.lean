import ArcDischarge.Task.Coherence

/-!
# The joiner is woken

`JoinHandle::poll` checks for the output, registers its waker and checks again. A result published
before the second check is found by it; one published after it is announced to the waker that was
registered before it, since every publisher wakes after it has published. The invariant follows a
call of `JoinHandle::poll` through its program counters.
-/

namespace ArcDischarge.Task

variable {V P W : Type*}

/-- Between publishing the result and the `waker.wake()` that follows. -/
def Pc.publishes : Pc V P W → Prop
  | .store | .unlockReady | .wakeReady | .cancelStore true | .cancelUnlock true
  | .cancelWake true => True
  | _ => False

/-- The waker of a call has been woken since the call began. -/
def Woken (m : Shared V P W) (call : JoinCall W) : Prop :=
  call.waker ∈ m.woken.drop call.began

/-- The waker of a call is registered, or has been woken. -/
def Registered (m : Shared V P W) (call : JoinCall W) : Prop :=
  call.began ≤ m.woken.length ∧ (Woken m call ∨ m.waker = some call.waker)

/-- The waker of a call has been woken, or will be once there is a result. -/
def Awaits (c : State V P W) (call : JoinCall W) : Prop :=
  call.began ≤ c.shared.woken.length ∧ (Woken c.shared call ∨
    (c.shared.waker = some call.waker ∧ (c.shared.inner = .future ∨ ∃ i, (c.pc i).publishes)))

/-- What the joiner can rely on at its program counter. -/
def Expects (c : State V P W) : Pc V P W → Prop
  | .takeLock call again | .take call again =>
    call.began ≤ c.shared.woken.length ∧ (again = true → Registered c.shared call)
  | .takeUnlock call again out =>
    call.began ≤ c.shared.woken.length ∧ (again = true → out = none → Awaits c call)
  | .register call => call.began ≤ c.shared.woken.length
  | .idle => ∀ call, c.shared.pending = some call → Awaits c call
  | _ => True

structure Listens (c : State V P W) : Prop where
  pending : c.shared.pending = none ∨ c.pc .joiner = .idle
  expects : Expects c (c.pc .joiner)

/-! ## The steps of the others -/

variable {c : State V P W} {m m' : Shared V P W} {p p' : Pc V P W} {a : Label V P W} {i : Agent}
  {call : JoinCall W}

/-- The other agents wake at most: whoever publishes wakes afterwards. -/
theorem Move.announces (h : Move m i p a m' p') (hi : i ≠ .joiner) :
    m'.pending = m.pending ∧
      (m'.waker = m.waker ∧ m'.woken = m.woken ∨
        m'.waker = none ∧ m'.woken = m.woken ++ m.waker.toList) ∧
      (m.inner = .future → m'.inner = .future ∨ p'.publishes) ∧
      (p.publishes → p'.publishes ∨ m'.woken = m.woken ++ m.waker.toList) := by
  cases h with
  | wakeReady => exact ⟨rfl, Or.inr ⟨rfl, rfl⟩, Or.inl, fun _ ↦ Or.inr rfl⟩
  | cancelWake => exact ⟨rfl, Or.inr ⟨rfl, rfl⟩, Or.inl, fun _ ↦ Or.inr rfl⟩
  | finish | abort =>
    exact ⟨rfl, Or.inl ⟨rfl, rfl⟩, fun _ ↦ Or.inr trivial, fun _ ↦ Or.inl trivial⟩
  | store | unlockReady => exact ⟨rfl, Or.inl ⟨rfl, rfl⟩, Or.inl, Or.inl⟩
  | @cancelStore _ published | @cancelUnlock _ published =>
    -- only a shutdown that aborted the task has something to publish
    cases published with
    | true => exact ⟨rfl, Or.inl ⟨rfl, rfl⟩, Or.inl, fun _ ↦ Or.inl trivial⟩
    | false => exact ⟨rfl, Or.inl ⟨rfl, rfl⟩, Or.inl, False.elim⟩
  | join | takeLock | takeNothing | take | joinReady | joinRegister | joinPending | register =>
    exact absurd rfl hi
  | _ => exact ⟨rfl, Or.inl ⟨rfl, rfl⟩, Or.inl, False.elim⟩

theorem Woken.append (h : Woken m call) (hbegan : call.began ≤ m.woken.length) {l : List W}
    (hw : m'.woken = m.woken ++ l) : Woken m' call := by
  rw [Woken, hw, List.drop_append_of_le_length hbegan]
  exact List.mem_append_left _ h

theorem woken_of_taken (hbegan : call.began ≤ m.woken.length) (hwaker : m.waker = some call.waker)
    (hw : m'.woken = m.woken ++ m.waker.toList) : Woken m' call := by
  rw [Woken, hw, List.drop_append_of_le_length hbegan, hwaker]
  exact List.mem_append_right _ (List.mem_singleton_self _)

theorem Registered.other (h : Registered m call) (hmove : Move m i p a m' p') (hi : i ≠ .joiner) :
    Registered m' call := by
  obtain ⟨hbegan, h⟩ := h
  obtain ⟨-, ⟨hwaker, hwoken⟩ | ⟨-, hwoken⟩, -, -⟩ := hmove.announces hi
  · simpa only [Registered, Woken, hwaker, hwoken] using ⟨hbegan, h⟩
  · refine ⟨by simp [hwoken]; omega, Or.inl ?_⟩
    rcases h with h | h
    · exact h.append hbegan hwoken
    · exact woken_of_taken hbegan h hwoken

theorem Awaits.other (h : Awaits c call) (hmove : Move c.shared i (c.pc i) a m' p')
    (hi : i ≠ .joiner) : Awaits ⟨m', Function.update c.pc i p'⟩ call := by
  obtain ⟨hbegan, h⟩ := h
  obtain ⟨-, hw, hpublish, hkeep⟩ := hmove.announces hi
  have hbegan' : call.began ≤ m'.woken.length := by
    rcases hw with ⟨-, hw⟩ | ⟨-, hw⟩ <;> simp [hw] <;> omega
  refine ⟨hbegan', ?_⟩
  rcases h with h | ⟨hwaker, h⟩
  · obtain ⟨-, hw⟩ | ⟨-, hw⟩ := hw
    · exact Or.inl (h.append hbegan (hw.trans (List.append_nil _).symm))
    · exact Or.inl (h.append hbegan hw)
  obtain ⟨hwaker', -⟩ | ⟨-, hw⟩ := hw
  swap
  · exact Or.inl (woken_of_taken hbegan hwaker hw)
  -- the waker stays registered: so there is no result yet, or a publisher on its way to wake
  have hpublishes (hp' : p'.publishes) : ∃ j, (Function.update c.pc i p' j).publishes :=
    ⟨i, by simpa using hp'⟩
  rcases h with h | ⟨j, hj⟩
  · exact Or.inr ⟨hwaker'.trans hwaker, (hpublish h).imp_right hpublishes⟩
  by_cases hji : j = i
  · rcases hkeep (hji ▸ hj) with hp' | hw
    · exact Or.inr ⟨hwaker'.trans hwaker, Or.inr (hpublishes hp')⟩
    · exact Or.inl (woken_of_taken hbegan hwaker hw)
  · exact Or.inr ⟨hwaker'.trans hwaker, Or.inr ⟨j, by simpa [hji] using hj⟩⟩

theorem Listens.other (h : Listens c) (hmove : Move c.shared i (c.pc i) a m' p')
    (hi : i ≠ .joiner) : Listens ⟨m', Function.update c.pc i p'⟩ := by
  obtain ⟨hpending, hw, -, -⟩ := hmove.announces hi
  have hbegan {n : ℕ} (hn : n ≤ c.shared.woken.length) : n ≤ m'.woken.length := by
    rcases hw with ⟨-, hw⟩ | ⟨-, hw⟩ <;> simp [hw] <;> omega
  have hpc : Function.update c.pc i p' .joiner = c.pc .joiner :=
    Function.update_of_ne hi.symm _ _
  obtain ⟨hidle, hexpects⟩ := h
  refine ⟨by simpa [hpc, hpending] using hidle, ?_⟩
  simp only [hpc]
  generalize c.pc .joiner = q at hexpects
  cases q with
  | idle => exact fun call hcall ↦ (hexpects call (hpending ▸ hcall)).other hmove hi
  | takeLock call again | take call again =>
    exact ⟨hbegan hexpects.1, fun h ↦ (hexpects.2 h).other hmove hi⟩
  | takeUnlock call again out =>
    exact ⟨hbegan hexpects.1, fun h h' ↦ (hexpects.2 h h').other hmove hi⟩
  | register call => exact hbegan hexpects
  | _ => trivial

/-! ## The steps of the joiner -/

theorem Listens.own (h : Listens c) (hmove : Move c.shared .joiner (c.pc .joiner) a m' p') :
    Listens ⟨m', Function.update c.pc .joiner p'⟩ := by
  obtain ⟨hidle, hexpects⟩ := h
  generalize hp : c.pc .joiner = p at hmove hidle hexpects
  cases hmove with
  | join => exact ⟨Or.inl rfl, by simp [Expects]⟩
  | takeLock hlock =>
    refine ⟨by simpa using hidle, ?_⟩
    simp only [Function.update_self]
    exact hexpects
  | takeNothing hinner =>
    refine ⟨by simpa using hidle, ?_⟩
    simp only [Function.update_self]
    refine ⟨hexpects.1, fun hagain _ ↦ ⟨hexpects.1, ?_⟩⟩
    exact (hexpects.2 hagain).2.imp_right fun hwaker ↦ ⟨hwaker, Or.inl hinner⟩
  | take hinner => exact ⟨by simpa using hidle, by simpa [Expects] using hexpects.1⟩
  | joinReady =>
    have hnone : c.shared.pending = none := by simpa using hidle
    exact ⟨Or.inl hnone, by simp [Expects, hnone]⟩
  | joinRegister => exact ⟨by simpa using hidle, by simpa [Expects] using hexpects.1⟩
  | joinPending =>
    refine ⟨Or.inr (by simp), ?_⟩
    simp only [Function.update_self]
    rintro call ⟨rfl⟩
    obtain ⟨hbegan, h⟩ := hexpects.2 rfl rfl
    refine ⟨hbegan, h.imp_right (And.imp_right (Or.imp_right ?_))⟩
    rintro ⟨j, hj⟩
    have hne : j ≠ .joiner := by
      rintro rfl
      simp [hp, Pc.publishes] at hj
    exact ⟨j, by simpa [hne] using hj⟩
  | register =>
    refine ⟨by simpa using hidle, ?_⟩
    simp only [Function.update_self]
    exact ⟨hexpects, fun _ ↦ ⟨hexpects, Or.inr rfl⟩⟩

theorem listens_of_reachable (h : (machine V P W).Reachable c) : Listens c := by
  refine System.invariant h ?_ fun c i a m p _ hL _ hs ↦ ?_
  · rintro _ rfl
    exact ⟨Or.inl rfl, by simp [State.new, Expects, Shared.new]⟩
  by_cases hi : i = .joiner
  · subst hi
    exact hL.own (move_of_step hs)
  · exact hL.other (move_of_step hs) hi

/-- **The joiner is always woken**: once the result is published and every publisher has called
`waker.wake()`, the waker of a last poll that returned `Pending` has been woken since that poll
began. -/
theorem woken_of_reachable (c : State V P W) (h : (machine V P W).Reachable c) (call : JoinCall W)
    (hpending : c.shared.pending = some call) (hret : ∃ val, c.shared.inner = .ret val)
    (hpublish : ∀ i, ¬(c.pc i).publishes) : call.waker ∈ c.shared.woken.drop call.began := by
  have hL := listens_of_reachable h
  have hidle : c.pc .joiner = .idle := hL.pending.resolve_left (by simp [hpending])
  have hexpects := hL.expects
  rw [hidle] at hexpects
  obtain ⟨-, hwoken | ⟨-, hfuture | ⟨i, hi⟩⟩⟩ := hexpects call hpending
  · exact hwoken
  · exact absurd hfuture (inner_ne_future.2 hret)
  · exact absurd hi (hpublish i)

/-- The joiner polls with waker 7 and gets `Pending`; then a worker polls the future to its end. -/
def joinThenFinish : List (Agent × Label ℕ Unit ℕ) :=
  (.joiner, .join 7) :: List.replicate 7 (.joiner, .step) ++
    [(.waker 0, .enqueueGlobal), (.worker 0, .refill), (.worker 0, .dequeue), (.worker 0, .step),
      (.worker 0, .step), (.worker 0, .step), (.worker 0, .outcome (.ready 5)), (.worker 0, .step),
      (.worker 0, .step), (.worker 0, .step)]

def finishedState : State ℕ Unit ℕ :=
  ((machine ℕ Unit ℕ).exec .new joinThenFinish).get (by decide)

theorem woken_finishedState : finishedState.shared.pending = some ⟨7, 0⟩ ∧
    7 ∈ finishedState.shared.woken.drop 0 := by
  have hexec : (machine ℕ Unit ℕ).exec .new joinThenFinish = some finishedState :=
    (Option.some_get _).symm
  have hpublish : ∀ i, ¬(finishedState.pc i).publishes := by
    refine System.forall_pc_of_exec (Q := fun _ p ↦ ¬p.publishes) hexec (fun i hi ↦ ?_) ?_
    · by_cases hne : i = .waker 0 <;> simp [State.new, hne, Pc.publishes]
    · simp only [joinThenFinish, List.replicate, List.cons_append, List.nil_append,
        List.forall_mem_cons]
      exact ⟨id, id, id, id, id, id, id, id, id, id, id, id, id, id, id, id, id, id, by simp⟩
  exact ⟨by decide, woken_of_reachable finishedState (.of_exec (.init rfl) hexec) ⟨7, 0⟩
    (by decide) ⟨.ok 5, rfl⟩ hpublish⟩

end ArcDischarge.Task
