import ArcDischarge.Task.Coherence

/-!
# No notification is lost

A task that has been notified, or cancelled, is carried by somebody: it is in a queue, or on its way
into one or out of one, or its poll owner will see the notification in the state byte when it
closes. A notification may be dropped at many points — the link is queued already, the state is
`NOTIFIED` already, another worker is polling — and each time there is another carrier.

Only the `IDLE -> RUNNING` update consumes a carrier without leaving one: the poll that is about to
start answers every notification up to then.
-/

namespace ArcDischarge.Task

variable {V P W : Type*}

/-- An agent with a reference in hand that it is about to enqueue or to pass to `run`, or inside
`finish_cancellation`. -/
def Pc.carries : Pc V P W → Prop
  | .enqueue | .cancelSchedule | .requeue | .run => True
  | .cancelLock | .cancelSet | .cancelStore _ | .cancelUnlock _ | .cancelWake _ => True
  | _ => False

/-- Somebody will still act on the task. -/
def Carried (c : State V P W) : Prop :=
  c.shared.linked = true ∨ (∃ w, 0 < c.shared.locals w) ∨ (∃ i, (c.pc i).carries) ∨
    ((c.shared.state = .notified ∨ c.shared.state = .cancelled) ∧
      ∃ w, (c.pc (.worker w)).owns)

variable {c : State V P W} {m m' : Shared V P W} {p p' : Pc V P W} {a : Label V P W} {i : Agent}

/-- The carriers, with the recorded poll owner. -/
theorem carried_iff (h : System.Holds Coherent Ok c) : Carried c ↔
    c.shared.linked = true ∨ (∃ w, 0 < c.shared.locals w) ∨ (∃ i, (c.pc i).carries) ∨
      ((c.shared.state = .notified ∨ c.shared.state = .cancelled) ∧ c.shared.owner ≠ none) := by
  have howner : (∃ w, (c.pc (.worker w)).owns) ↔ c.shared.owner ≠ none := by
    rw [Option.ne_none_iff_exists']
    exact exists_congr fun w ↦ (h.2 (.worker w)).owns w rfl
  rw [Carried, howner]

/-- The task is in a queue, or this agent has it in hand, or the state byte will tell its poll
owner. -/
def Kept (m : Shared V P W) (p : Pc V P W) : Prop :=
  m.linked = true ∨ (∃ w, 0 < m.locals w) ∨ p.carries ∨
    (m.state = .notified ∨ m.state = .cancelled) ∧ m.owner ≠ none

/-- An entry in a queue stays, moves to another queue, or is taken in hand. -/
theorem Move.kept_of_queued (h : Move m i p a m' p')
    (hq : m.linked = true ∨ ∃ w, 0 < m.locals w) : Kept m' p' := by
  cases h with
  | @refill w | @enqueueLocal _ w => exact Or.inr (Or.inl ⟨w, by simp⟩)
  | dequeue => exact Or.inr (Or.inr (Or.inl trivial))
  | requeue | enqueueGlobal | cancelSchedule => exact Or.inl rfl
  | _ => exact hq.imp id Or.inl

/-- Who has the task in hand enqueues it, or wins it, or finds that its poll owner will see to it.
-/
theorem Move.kept_of_carries (hm : Coherent m) (hp : Ok i m p) (h : Move m i p a m' p')
    (hinner : m'.inner = .future) (hcarries : p.carries) :
    Kept m' p' ∨ p = .run ∧ m.state = .idle := by
  have hknows := hp.knows
  cases h with
  | win h => exact Or.inr ⟨rfl, h⟩
  | notify h => exact Or.inl (Or.inr (Or.inr (Or.inr ⟨Or.inl rfl, hm.running (Or.inl h)⟩)))
  | runNothing h =>
    rcases h with h | h
    · exact absurd hinner (hm.completed h)
    · exact Or.inl (Or.inr (Or.inr (Or.inr ⟨Or.inl h, hm.running (Or.inr h)⟩)))
  | requeue | enqueueGlobal | cancelSchedule => exact Or.inl (Or.inl rfl)
  | @enqueueLocal _ w => exact Or.inl (Or.inr (Or.inl ⟨w, by simp⟩))
  | runCancelled | cancelLock | abort | abortNothing | cancelStore | cancelUnlock =>
    exact Or.inl (Or.inr (Or.inr (Or.inl trivial)))
  | cancelWake => exact absurd hinner (hm.completed hknows)
  | _ => exact absurd hcarries id

/-- What the state byte tells the poll owner, the owner takes in hand when it closes. -/
theorem Move.kept_of_flagged (hp : Ok i m p) (h : Move m i p a m' p') (hinner : m'.inner = .future)
    (hstate : m.state = .notified ∨ m.state = .cancelled) (howner : m.owner ≠ none) :
    Kept m' p' := by
  have hknows := hp.knows
  cases h with
  | win h | notify h | close h => simp [h] at hstate
  | closeNothing h => rcases h with h | h <;> simp [h] at hstate
  | closeNotified | closeCancelled | cancelUpdate => exact Or.inr (Or.inr (Or.inl trivial))
  | store => exact absurd hinner hknows
  | cancelStore => exact absurd hinner hknows.2
  | _ => exact Or.inr (Or.inr (Or.inr ⟨hstate, howner⟩))

/-- Every step but a win hands the task on. -/
theorem Carried.move (hc : System.Holds Coherent Ok c)
    (hc' : System.Holds Coherent Ok (⟨m', Function.update c.pc i p'⟩ : State V P W))
    (hmove : Move c.shared i (c.pc i) a m' p') (hinner : m'.inner = .future) (h : Carried c) :
    Carried ⟨m', Function.update c.pc i p'⟩ ∨ (c.pc i = .run ∧ c.shared.state = .idle) := by
  have hkept (hk : Kept m' p') : Carried (⟨m', Function.update c.pc i p'⟩ : State V P W) := by
    rw [carried_iff hc']
    exact hk.imp id (Or.imp id (Or.imp (fun hp' ↦ ⟨i, by simpa using hp'⟩) id))
  rw [carried_iff hc] at h
  rcases h with h | h | ⟨j, hj⟩ | ⟨hstate, howner⟩
  · exact Or.inl (hkept (hmove.kept_of_queued (Or.inl h)))
  · exact Or.inl (hkept (hmove.kept_of_queued (Or.inr h)))
  · by_cases hji : j = i
    · subst hji
      exact (hmove.kept_of_carries hc.1 (hc.2 j) hinner hj).imp hkept id
    · -- a carrier that does not move stays one
      exact Or.inl (Or.inr (Or.inr (Or.inl ⟨j, by simpa [hji] using hj⟩)))
  · exact Or.inl (hkept (hmove.kept_of_flagged (hc.2 i) hinner hstate howner))

/-- What is carried, and by whom otherwise. -/
structure Duty (c : State V P W) : Prop where
  cancelled : c.shared.inner = .future → c.shared.state = .cancelled → Carried c
  woken : c.shared.inner = .future → c.shared.sinceWin = true → Carried c
  /-- What came before the win is answered by the poll about to start. -/
  won : c.shared.inner = .future → c.shared.notified = true → c.shared.sinceWin = false →
    ∃ w, c.pc (.worker w) = .lock ∨ c.pc (.worker w) = .enter

/-- Where a cancellation or a wake that is still to be answered comes from: it was there before, or
the agent that moves has just become its carrier. -/
theorem Move.due (hmove : Move m i p a m' p') :
    (m'.inner = .future → m.inner = .future) ∧
    (m'.state = .cancelled → m.state = .cancelled ∨ p'.carries) ∧
    (m'.sinceWin = true → p'.carries ∨ m.sinceWin = true ∧ ¬(p = .run ∧ m.state = .idle)) := by
  cases hmove with
  | win => exact ⟨id, by simp, by simp⟩
  | wake | cancelUpdate => exact ⟨id, fun _ ↦ Or.inr trivial, fun _ ↦ Or.inl trivial⟩
  | finish | abort | take => exact ⟨by simp, Or.inl, fun h ↦ Or.inr ⟨h, by simp⟩⟩
  | notify h => exact ⟨id, by simp, fun hs ↦ Or.inr ⟨hs, by simp [h]⟩⟩
  | runNothing h =>
    refine ⟨id, Or.inl, fun hs ↦ Or.inr ⟨hs, ?_⟩⟩
    rcases h with h | h <;> simp [h]
  | close | closeNotified | store | cancelStore =>
    exact ⟨id, by simp, fun hs ↦ Or.inr ⟨hs, by simp⟩⟩
  | runCancelled h => exact ⟨id, Or.inl, fun hs ↦ Or.inr ⟨hs, by simp [h]⟩⟩
  | _ => exact ⟨id, Or.inl, fun hs ↦ Or.inr ⟨hs, by simp⟩⟩

/-- Where a notification that the next poll answers comes from. -/
theorem Move.won (hmove : Move m i p a m' p') (hnotified : m'.notified = true)
    (hsince : m'.sinceWin = false) :
    (∃ w, i = .worker w ∧ p' = .lock) ∨ m.notified = true ∧ m.sinceWin = false := by
  cases hmove with
  | @win w => exact Or.inl ⟨w, rfl, rfl⟩
  | enter => cases hnotified
  | wake => cases hsince
  | _ => exact Or.inr ⟨hnotified, hsince⟩

/-- Between its win and its poll a worker gets on to its poll. -/
theorem Move.starts (hmove : Move m i p a m' p') (hp : p = .lock ∨ p = .enter)
    (hinner : m'.inner = .future) (hnotified : m'.notified = true) :
    p' = .lock ∨ p' = .enter := by
  cases hmove with
  | lock => exact Or.inr rfl
  | enter => cases hnotified
  | enterReturn h => exact absurd (h.symm.trans hinner) (by simp)
  | _ => simp at hp

theorem Duty.move (hc : System.Holds Coherent Ok c)
    (hc' : System.Holds Coherent Ok (⟨m', Function.update c.pc i p'⟩ : State V P W))
    (hmove : Move c.shared i (c.pc i) a m' p') (h : Duty c) :
    Duty ⟨m', Function.update c.pc i p'⟩ := by
  obtain ⟨hinner, hcancelled, hwoken⟩ := hmove.due
  have hnew (hp' : p'.carries) : Carried (⟨m', Function.update c.pc i p'⟩ : State V P W) :=
    Or.inr (Or.inr (Or.inl ⟨i, by simpa using hp'⟩))
  refine ⟨fun hfuture hstate ↦ ?_, fun hfuture hsince ↦ ?_, fun hfuture hnotified hsince ↦ ?_⟩
  · rcases hcancelled hstate with hold | hp'
    · refine (Carried.move hc hc' hmove hfuture
        (h.cancelled (hinner hfuture) hold)).resolve_right ?_
      rintro ⟨-, hidle⟩
      cases hold.symm.trans hidle
    · exact hnew hp'
  -- a step that leaves `sinceWin` set is no win, so it hands the task on
  · rcases hwoken hsince with hp' | ⟨hold, hnot⟩
    · exact hnew hp'
    · exact (Carried.move hc hc' hmove hfuture (h.woken (hinner hfuture) hold)).resolve_right hnot
  · rcases hmove.won hnotified hsince with ⟨w, rfl, rfl⟩ | ⟨hold, hsinceOld⟩
    · exact ⟨w, Or.inl (by simp)⟩
    · obtain ⟨w, hw⟩ := h.won (hinner hfuture) hold hsinceOld
      refine ⟨w, ?_⟩
      by_cases hi : i = .worker w
      · subst hi
        simpa using hmove.starts hw hfuture hnotified
      · simpa [show Agent.worker w ≠ i from Ne.symm hi] using hw

theorem duty_of_reachable (h : (machine V P W).Reachable c) : Duty c := by
  refine System.invariant h ?_ fun c i a m p hc hD _ hs ↦ ?_
  · rintro _ rfl
    have hspawn : Carried (State.new : State V P W) :=
      Or.inr (Or.inr (Or.inl ⟨.waker 0, by simp [State.new, Pc.carries]⟩))
    exact ⟨fun _ _ ↦ hspawn, fun _ _ ↦ hspawn, fun _ _ hs ↦ by simp [State.new, Shared.new] at hs⟩
  have hstep : (machine V P W).step c (i, a) = some ⟨m, Function.update c.pc i p⟩ :=
    System.machine_step_eq_some.mpr ⟨m, p, hs, rfl⟩
  have hd := coherent_of_reachable (.step hc trivial hstep)
  exact hD.move (coherent_of_reachable hc) hd (move_of_step hs)

/-- **No notification and no cancellation is lost**: a task whose future is still there, and that
has been spawned or woken since the start of its last poll, or cancelled, has a carrier; or else its
poll owner has won since the last of these and has still to start its poll. -/
theorem carried_of_reachable (c : State V P W) (h : (machine V P W).Reachable c)
    (hinner : c.shared.inner = .future)
    (hdue : c.shared.notified = true ∨ c.shared.state = .cancelled) :
    Carried c ∨ (c.shared.state = .running ∧ c.shared.sinceWin = false ∧
      ∃ w, c.pc (.worker w) = .lock ∨ c.pc (.worker w) = .enter) := by
  have hD := duty_of_reachable h
  obtain ⟨hm, hp⟩ := coherent_of_reachable h
  by_cases hs : c.shared.state = .cancelled
  · exact Or.inl (hD.cancelled hinner hs)
  have hnotified := hdue.resolve_right hs
  cases hwin : c.shared.sinceWin with
  | true => exact Or.inl (hD.woken hinner hwin)
  | false =>
    -- not woken since the win: the owner has still to start its poll
    obtain ⟨w, hw⟩ := hD.won hinner hnotified hwin
    have howns : (c.pc (.worker w)).owns := by rcases hw with hw | hw <;> simp [hw, Pc.owns]
    have howner := ((hp (.worker w)).owns w rfl).1 howns
    cases hstate : c.shared.state with
    | running => exact Or.inr ⟨rfl, rfl, w, hw⟩
    | notified => exact Or.inl (Or.inr (Or.inr (Or.inr ⟨.inl hstate, w, howns⟩)))
    | idle =>
      have hnone := hm.idle hstate
      rw [howner] at hnone
      cases hnone
    | completed => exact absurd hinner (hm.completed hstate)
    | cancelled => exact absurd hstate hs

/-- A worker has taken the task just spawned from its queue and has won `IDLE -> RUNNING`. -/
def justWon : List (Agent × Label ℕ Unit ℕ) :=
  [(.waker 0, .enqueueGlobal), (.worker 0, .refill), (.worker 0, .dequeue), (.worker 0, .step)]

def wonState : State ℕ Unit ℕ := ((machine ℕ Unit ℕ).exec .new justWon).get (by decide)

theorem exec_justWon : (machine ℕ Unit ℕ).exec .new justWon = some wonState :=
  (Option.some_get _).symm

/-- Between the win and the start of the poll, the poll owner is the only one to act on the task. -/
theorem not_carried_justWon : ¬∀ c : State ℕ Unit ℕ, (machine ℕ Unit ℕ).Reachable c →
    c.shared.inner = .future → c.shared.notified = true ∨ c.shared.state = .cancelled →
      Carried c := by
  intro h
  have hpc : ∀ i, ¬(wonState.pc i).carries := by
    refine System.forall_pc_of_exec (Q := fun _ p ↦ ¬p.carries) exec_justWon (fun i hi ↦ ?_) ?_
    · have hne : i ≠ .waker 0 := by
        rintro rfl
        exact hi (by decide)
      simp [State.new, hne, Pc.carries]
    · simp only [justWon, List.forall_mem_cons]
      exact ⟨id, id, id, id, by simp⟩
  rcases h wonState (.of_exec (.init rfl) exec_justWon) rfl (.inl rfl) with
    hc | ⟨w, hc⟩ | ⟨i, hc⟩ | ⟨hc, -⟩
  · exact absurd hc (by decide)
  · have hlocals : wonState.shared.locals =
        Function.update (Function.update (fun _ ↦ 0) 0 1) 0 0 := rfl
    by_cases hw : w = 0 <;> simp [hlocals, hw] at hc
  · exact hpc i hc
  · exact absurd hc (by decide)

theorem carried_justWon : wonState.shared.state = .running ∧ (Carried wonState ∨
    (wonState.shared.state = .running ∧ wonState.shared.sinceWin = false ∧
      ∃ w, wonState.pc (.worker w) = .lock ∨ wonState.pc (.worker w) = .enter)) :=
  ⟨rfl, carried_of_reachable wonState (.of_exec (.init rfl) exec_justWon) rfl (.inl rfl)⟩

end ArcDischarge.Task
