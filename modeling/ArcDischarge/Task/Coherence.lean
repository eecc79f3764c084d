import ArcDischarge.Machine.Lock
import ArcDischarge.Task.Lifecycle
import ArcDischarge.Task.Moves

/-!
# Coherence of the state byte and the future

The state byte and the value under the mutex are written by separate steps, so what ties them is an
invariant over the program counters. The two ends of it: a poll owner is recorded from its
`IDLE -> RUNNING` to its closing update, and while the mutex is free the value is a `Return` exactly
when the state is `COMPLETED`. In between, each holder of the mutex knows how far it has got.
-/

namespace ArcDischarge.Task

variable {V P W : Type*}

/-- The poll owner's part of `Task::run`. -/
def Pc.owns : Pc V P W → Prop
  | .lock | .enter | .polling | .store | .unlockPending | .close => True
  | _ => False

/-- The critical sections of the mutex `fut`. -/
def Pc.holds : Pc V P W → Prop
  | .enter | .polling | .store | .unlockReady | .unlockPending | .cancelSet | .cancelStore _
  | .cancelUnlock _ | .take _ _ | .takeUnlock _ _ _ => True
  | _ => False

/-- No poll will be won any more. -/
def Status.ended : Status → Prop
  | .cancelled | .completed => True
  | _ => False

/-- What an agent knows at its program counter. -/
def Knows (m : Shared V P W) : Pc V P W → Prop
  | .enter | .unlockPending | .take _ _ | .takeUnlock _ _ _ =>
    m.inner = .future ∨ m.state = .completed
  | .polling => m.inner = .future
  | .store => m.inner ≠ .future
  | .unlockReady | .wakeReady | .cancelUnlock _ | .cancelWake _ => m.state = .completed
  | .cancelLock => m.state.ended
  | .cancelSet => m.state.ended ∧ (m.inner = .future ∨ m.state = .completed)
  | .cancelStore _ => m.state.ended ∧ m.inner ≠ .future
  | _ => True

/-- The shared part of the invariant. -/
structure Coherent (m : Shared V P W) : Prop where
  running : m.state = .running ∨ m.state = .notified → m.owner ≠ none
  idle : m.state = .idle → m.owner = none
  completed : m.state = .completed → m.inner ≠ .future
  free : m.lock = none → m.inner = .future ∨ m.state = .completed
  alive : m.inner = .future →
    phase m.trace = some .alive ∨ ∃ w, phase m.trace = some (.polling w)
  gone : m.inner ≠ .future → ∃ out, phase m.trace = some (.gone out)
  polling : ∀ w, phase m.trace = some (.polling w) → m.lock = some (.worker w)

/-- The part of the invariant for one agent. -/
structure Ok (i : Agent) (m : Shared V P W) (p : Pc V P W) : Prop where
  owns : ∀ w, i = .worker w → (p.owns ↔ m.owner = some w)
  holds : p.holds ↔ m.lock = some i
  knows : Knows m p
  polling : ∀ w, i = .worker w → (p = .polling ↔ phase m.trace = some (.polling w))

section

variable {m m' : Shared V P W} {p p' q : Pc V P W} {a : Label V P W} {i j : Agent}

/-- Under the lock, and outside the poll, a future that is there is alive. -/
theorem Coherent.phase_eq_alive (hm : Coherent m) (hp : Ok i m p) {w : ℕ} (hi : i = .worker w)
    (hholds : p.holds) (hp' : p ≠ .polling) (hinner : m.inner = .future) :
    phase m.trace = some .alive := by
  subst hi
  rcases hm.alive hinner with h | ⟨w', h⟩
  · exact h
  · have hlock := (hm.polling w' h).symm.trans (hp.holds.1 hholds)
    obtain rfl : w' = w := by simpa using hlock
    exact absurd ((hp.polling w' rfl).2 h) hp'

/-! ### What a step does to the mutex, the poll owner and the future -/

theorem Move.lockStep (h : Move m i p a m' p') : LockStep i m.lock m'.lock p.holds p'.holds := by
  cases h with
  | lock h | cancelLock h | takeLock h => exact .acquire h rfl trivial
  | unlockReady | unlockPending | cancelUnlock | joinReady | joinRegister | joinPending =>
    exact .release trivial rfl id
  | _ => exact .keep rfl Iff.rfl

theorem Move.ownerStep {w : ℕ} (h : Move m (.worker w) p a m' p')
    (hidle : m.state = .idle → m.owner = none) :
    LockStep w m.owner m'.owner p.owns p'.owns := by
  cases h with
  | win h => exact .acquire (hidle h) rfl trivial
  | store | close | closeNotified | closeCancelled | closeNothing =>
    exact .release trivial rfl id
  | _ => exact .keep rfl Iff.rfl

theorem Move.owner_eq (h : Move m i p a m' p') (hi : ∀ w, i ≠ .worker w) : m'.owner = m.owner := by
  cases h with
  | _ => first | rfl | exact absurd rfl (hi _)

/-- The value changes under the lock only. -/
theorem Move.inner_eq_of_not_holds (h : Move m i p a m' p') (hp : ¬p.holds) :
    m'.inner = m.inner := by
  cases h with
  | finish | abort | take => exact absurd trivial hp
  | _ => rfl

theorem Move.ends (h : Move m i p a m' p') : (m.state = .completed → m'.state = .completed) ∧
    (m.state = .cancelled → m'.state = .cancelled ∨ m'.state = .completed) := by
  cases h with
  | win h | notify h | close h | closeNotified h => simp [h]
  | store | cancelStore => simp
  | cancelUpdate h => simp [h]
  | _ => exact ⟨id, Or.inl⟩

/-- The phases of the future that a step may lead to. -/
inductive PhaseStep (m m' : Shared V P W) (i : Agent) (p p' : Pc V P W) : Prop where
  | keep (h : phase m'.trace = phase m.trace) (hinner : m'.inner = .future ↔ m.inner = .future)
      (hp : p' = .polling ↔ p = .polling)
  | start {w : ℕ} (hi : i = .worker w) (hp : p = .enter) (hp' : p' = .polling)
      (hinner : m'.inner = .future) (h : phase m.trace = some .alive)
      (h' : phase m'.trace = some (.polling w))
  | pend {w : ℕ} (hi : i = .worker w) (hp : p = .polling) (hp' : p' ≠ .polling)
      (hinner : m'.inner = .future) (h : phase m.trace = some (.polling w))
      (h' : phase m'.trace = some .alive)
  | gone {w : ℕ} {out : Output V P} (hi : i = .worker w) (hp : p.holds) (hp' : p' ≠ .polling)
      (hinner : m'.inner = .ret out)
      (h : phase m.trace = some .alive ∨ phase m.trace = some (.polling w))
      (h' : phase m'.trace = some (.gone out))

theorem Move.phaseStep (hm : Coherent m) (hp : Ok i m p) (h : Move m i p a m' p') :
    PhaseStep m m' i p p' := by
  have hpolling := hp.polling
  cases h with
  | enter h =>
    have halive := hm.phase_eq_alive hp rfl trivial (by simp) h
    exact .start rfl rfl rfl h halive (phase_append_polled halive _)
  | @pending w o h =>
    have hphase := (hpolling w rfl).mp rfl
    exact .pend rfl rfl (by simp) hp.knows hphase (phase_append_pending hphase h)
  | @finish w o val h =>
    have hphase := (hpolling w rfl).mp rfl
    exact .gone rfl trivial (by simp) rfl (Or.inr hphase) (phase_append_finish hphase h)
  | @abort w h =>
    have halive := hm.phase_eq_alive hp rfl trivial (by simp) h
    exact .gone rfl trivial (by simp) rfl (Or.inl halive) (phase_append_aborted halive)
  | cancelUpdate => exact .keep (phase_append_cancelled _ _) Iff.rfl (by simp)
  | take h => exact .keep rfl (by simp [h]) (by simp)
  | _ => exact .keep rfl Iff.rfl (by simp)

/-! ### The invariant -/

/-- The part of the invariant about the phase of the future. -/
theorem PhaseStep.coherent (h : PhaseStep m m' i p p') (hm : Coherent m) :
    (m'.inner = .future → phase m'.trace = some .alive ∨ ∃ w, phase m'.trace = some (.polling w)) ∧
      (m'.inner ≠ .future → ∃ out, phase m'.trace = some (.gone out)) := by
  cases h with
  | keep h hinner _ =>
    rw [h, ne_eq, hinner]
    exact ⟨hm.alive, hm.gone⟩
  | @start w _ _ _ hinner _ h' => exact ⟨fun _ ↦ Or.inr ⟨w, h'⟩, fun hne ↦ absurd hinner hne⟩
  | pend _ _ _ hinner _ h' => exact ⟨fun _ ↦ Or.inl h', fun hne ↦ absurd hinner hne⟩
  | @gone _ out _ _ _ hinner _ h' => exact ⟨by simp [hinner], fun _ ↦ ⟨out, h'⟩⟩

/-- Whoever polls keeps the mutex. -/
theorem PhaseStep.lock (h : PhaseStep m m' i p p') (hm : Coherent m) (hp : Ok i m p)
    (hmove : Move m i p a m' p') {w : ℕ} (hw : phase m'.trace = some (.polling w)) :
    m'.lock = some (.worker w) := by
  have hown := hmove.lockStep.own hp.holds
  cases h with
  | keep h _ hpolling =>
    rw [h] at hw
    by_cases hi : i = .worker w
    · have hp' : p' = .polling := hpolling.mpr ((hp.polling w hi).mpr hw)
      rw [hp', hi] at hown
      exact hown.mp trivial
    · exact (hmove.lockStep.other hp.holds (Ne.symm hi)).mpr (hm.polling w hw)
  | start hi _ hp' _ _ h' =>
    obtain rfl : _ = w := by simpa [h'] using hw
    rw [hp', hi] at hown
    exact hown.mp trivial
  | pend _ _ _ _ _ h' | gone _ _ _ _ _ h' => simp [h'] at hw

/-- The state byte against the poll owner and the value. -/
theorem Move.state (hm : Coherent m) (hp : Ok i m p) (h : Move m i p a m' p') :
    (m'.state = .running ∨ m'.state = .notified → m'.owner ≠ none) ∧
      (m'.state = .idle → m'.owner = none) ∧
      (m'.state = .completed → m'.inner ≠ .future) ∧
      (m'.lock = none → m'.inner = .future ∨ m'.state = .completed) := by
  have hknows := hp.knows
  have hholds := hp.holds
  obtain ⟨hrunning, hidle, hcompleted, hfree, -, -, -⟩ := hm
  cases h with
  | win h | close h | closeNotified h =>
    refine ⟨by simp, by simp, by simp, fun hlock ↦ Or.inl ((hfree hlock).resolve_right ?_)⟩
    simp [h]
  | notify h =>
    refine ⟨fun _ ↦ hrunning (Or.inl h), by simp, by simp, fun hlock ↦
      Or.inl ((hfree hlock).resolve_right ?_)⟩
    simp [h]
  | lock | cancelLock | takeLock => exact ⟨hrunning, hidle, hcompleted, by simp⟩
  | finish | abort | take =>
    -- the value changes while the mutex is taken
    refine ⟨hrunning, hidle, by simp, fun hlock ↦ ?_⟩
    have hheld := hholds.mp trivial
    simp [show m.lock = none from hlock] at hheld
  | store => exact ⟨by simp, fun _ ↦ rfl, fun _ ↦ hknows, fun _ ↦ Or.inr rfl⟩
  | cancelStore => exact ⟨by simp, by simp, fun _ ↦ hknows.2, fun _ ↦ Or.inr rfl⟩
  | unlockReady | cancelUnlock => exact ⟨hrunning, hidle, hcompleted, fun _ ↦ Or.inr hknows⟩
  | unlockPending | joinReady | joinRegister | joinPending =>
    exact ⟨hrunning, hidle, hcompleted, fun _ ↦ hknows⟩
  | closeCancelled h => exact ⟨by simp [h], fun _ ↦ rfl, hcompleted, hfree⟩
  | closeNothing h =>
    refine ⟨?_, fun _ ↦ rfl, hcompleted, hfree⟩
    rcases h with h | h <;> simp [h]
  | cancelUpdate h =>
    exact ⟨by simp, by simp, by simp, fun hlock ↦ Or.inl ((hfree hlock).resolve_right h.1)⟩
  | _ => exact ⟨hrunning, hidle, hcompleted, hfree⟩

theorem Coherent.move (hm : Coherent m) (hp : Ok i m p) (h : Move m i p a m' p') :
    Coherent m' := by
  have hphase := h.phaseStep hm hp
  obtain ⟨hrunning, hidle, hcompleted, hfree⟩ := h.state hm hp
  obtain ⟨halive, hgone⟩ := hphase.coherent hm
  exact ⟨hrunning, hidle, hcompleted, hfree, halive, hgone, fun _ hw ↦ hphase.lock hm hp h hw⟩

theorem Knows.own (hm : Coherent m) (hknows : Knows m p) (h : Move m i p a m' p') :
    Knows m' p' := by
  cases h with
  | lock h | takeLock h => exact hm.free h
  | cancelLock h => exact ⟨hknows, hm.free h⟩
  | enter h => exact h
  | pending => exact Or.inl hknows
  | finish => simp [Knows]
  | store | cancelStore => rfl
  | runCancelled h | closeCancelled h => simp [Knows, h, Status.ended]
  | abort => exact ⟨hknows.1, by simp⟩
  | abortNothing h => exact ⟨hknows.1, by simp [h]⟩
  | take h => exact Or.inr (hknows.resolve_left (by simp [h]))
  | enterReturn | takeNothing | unlockReady | cancelUnlock => exact hknows
  | _ => trivial

/-- What an agent knows is lost to no other agent: the state only moves towards its end, and the
value changes under the lock only. -/
theorem Knows.mono (h : Knows m q) (hended : m.state.ended → m'.state.ended)
    (hcompleted : m.state = .completed → m'.state = .completed)
    (hinner : q.holds → m'.inner = m.inner) : Knows m' q := by
  cases q with
  | enter | unlockPending | take | takeUnlock =>
    rw [Knows, hinner trivial]
    exact h.imp id hcompleted
  | polling | store =>
    rw [Knows, hinner trivial]
    exact h
  | cancelSet =>
    rw [Knows, hinner trivial]
    exact ⟨hended h.1, h.2.imp id hcompleted⟩
  | cancelStore =>
    rw [Knows, hinner trivial]
    exact ⟨hended h.1, h.2⟩
  | unlockReady | wakeReady | cancelUnlock | cancelWake => exact hcompleted h
  | cancelLock => exact hended h
  | _ => trivial

theorem Move.ended (h : Move m i p a m' p') (hended : m.state.ended) : m'.state.ended := by
  obtain ⟨hcompleted, hcancelled⟩ := h.ends
  cases hs : m.state with
  | completed => simp [hcompleted hs, Status.ended]
  | cancelled => rcases hcancelled hs with h | h <;> simp [h, Status.ended]
  | idle | running | notified => simp [hs, Status.ended] at hended

theorem Ok.own (hm : Coherent m) (hp : Ok i m p) (h : Move m i p a m' p') : Ok i m' p' := by
  refine ⟨?_, h.lockStep.own hp.holds, hp.knows.own hm h, ?_⟩
  · rintro w rfl
    exact (h.ownerStep hm.idle).own (hp.owns w rfl)
  · rintro w rfl
    cases h.phaseStep hm hp with
    | keep heq _ hpolling => rw [hpolling, heq, hp.polling w rfl]
    | start hi _ hp' _ _ h' =>
      cases hi
      exact iff_of_true hp' h'
    | pend _ _ hp' _ _ h' | gone _ _ hp' _ _ h' => exact iff_of_false hp' (by simp [h'])

theorem Ok.other (hm : Coherent m) (hp : Ok i m p) (h : Move m i p a m' p') (hne : j ≠ i)
    (hq : Ok j m q) : Ok j m' q := by
  have hlock := h.lockStep.other hp.holds hne
  refine ⟨?_, hq.holds.trans hlock.symm, hq.knows.mono h.ended h.ends.1 fun hholds ↦ ?_, ?_⟩
  · rintro w rfl
    rw [hq.owns w rfl]
    by_cases hi : ∃ w', i = .worker w'
    · obtain ⟨w', rfl⟩ := hi
      exact ((h.ownerStep hm.idle).other (hp.owns w' rfl) (by simpa using hne)).symm
    · rw [h.owner_eq fun w' hw' ↦ hi ⟨w', hw'⟩]
  · refine h.inner_eq_of_not_holds fun hi ↦ hne ?_
    exact Option.some.inj ((hq.holds.mp hholds).symm.trans (hp.holds.mp hi))
  · rintro w rfl
    rw [hq.polling w rfl]
    have hw {w' : ℕ} (hi : i = .worker w') : w' ≠ w := fun hww ↦ hne (by rw [hi, hww])
    cases h.phaseStep hm hp with
    | keep heq _ _ => rw [heq]
    | start hi _ _ _ h h' => simp [h, h', hw hi]
    | pend hi _ _ _ h h' => simp [h, h', hw hi]
    | gone hi _ _ _ h h' => rcases h with h | h <;> simp [h, h', hw hi]

end

theorem coherent_of_reachable {c : State V P W} (h : (machine V P W).Reachable c) :
    System.Holds Coherent Ok c := by
  refine System.holds_of_reachableUnder h ?_ ?_ ?_
  · rintro _ rfl
    refine ⟨by constructor <;> simp [State.new, Shared.new], fun i ↦ ?_⟩
    by_cases hi : i = .waker 0
    · subst hi
      constructor <;> simp [State.new, Shared.new, Pc.owns, Pc.holds, Knows]
    · constructor <;> simp [State.new, Shared.new, Pc.owns, Pc.holds, Knows, hi]
  · rintro c i a m p - ⟨hm, hp⟩ - hstep
    have hmove := move_of_step hstep
    exact ⟨hm.move (hp i) hmove, (hp i).own hm hmove⟩
  · rintro c i a m p - ⟨hm, hp⟩ - hstep j hj
    exact (hp i).other hm (move_of_step hstep) hj (hp j)

/-! ## The state machine -/

/-- How the state byte, the poll owners, the value under the mutex and the polls of the user's
future go together in one state. -/
structure StateMachine (c : State V P W) : Prop where
  one_owner : ∀ w w', (c.pc (.worker w)).owns → (c.pc (.worker w')).owns → w = w'
  running : c.shared.state = .running ∨ c.shared.state = .notified →
    ∃! w, (c.pc (.worker w)).owns
  idle : c.shared.state = .idle → ∀ w, ¬(c.pc (.worker w)).owns
  /-- `COMPLETED` is never left, and `CANCELLED` is left to `COMPLETED` only. -/
  ends : ∀ a d, (machine V P W).step c a = some d →
    (c.shared.state = .completed → d.shared.state = .completed) ∧
      (c.shared.state = .cancelled → d.shared.state = .cancelled ∨ d.shared.state = .completed)
  completed : c.shared.state = .completed → ∃ val, c.shared.inner = .ret val
  free : c.shared.lock = none → (∃ val, c.shared.inner = .ret val) → c.shared.state = .completed
  /-- No poll starts during another one, nor after the future has finished or been dropped. -/
  lawful : ∃ ph, phase c.shared.trace = some ph
  polling : ∀ w, c.pc (.worker w) = .polling ↔ phase c.shared.trace = some (.polling w)

theorem inner_ne_future {m : Shared V P W} : m.inner ≠ .future ↔ ∃ val, m.inner = .ret val := by
  cases m.inner <;> simp

/-- **The task's state machine is coherent** in every interleaving of runs, cancels, wakes and the
joiner's polls. -/
theorem stateMachine_of_reachable (c : State V P W) (h : (machine V P W).Reachable c) :
    StateMachine c := by
  obtain ⟨hm, hp⟩ := coherent_of_reachable h
  have howner (w : ℕ) : (c.pc (.worker w)).owns ↔ c.shared.owner = some w :=
    (hp (.worker w)).owns w rfl
  refine
    { one_owner := fun w w' hw hw' ↦ ?_
      running := fun hs ↦ ?_
      idle := fun hs w hw ↦ ?_
      ends := fun a d hstep ↦ ?_
      completed := fun hs ↦ inner_ne_future.1 (hm.completed hs)
      free := fun hl hi ↦ (hm.free hl).resolve_left (inner_ne_future.2 hi)
      lawful := ?_
      polling := fun w ↦ (hp (.worker w)).polling w rfl }
  · exact Option.some.inj (((howner w).1 hw).symm.trans ((howner w').1 hw'))
  · obtain ⟨w, hw⟩ := Option.ne_none_iff_exists'.mp (hm.running hs)
    refine ⟨w, (howner w).2 hw, fun w' hw' ↦ ?_⟩
    exact Option.some.inj (((howner w').1 hw').symm.trans hw)
  · have hnone := hm.idle hs
    rw [(howner w).1 hw] at hnone
    cases hnone
  · obtain ⟨m, p, hs, rfl⟩ := System.machine_step_eq_some.mp hstep
    exact (move_of_step hs).ends
  · by_cases hi : c.shared.inner = .future
    · rcases hm.alive hi with h | ⟨w, h⟩ <;> exact ⟨_, h⟩
    · obtain ⟨out, h⟩ := hm.gone hi
      exact ⟨_, h⟩

/-- Worker 0 polls the task; it is woken meanwhile, and worker 1 finds it running. -/
def wokenWhilePolled : List (Agent × Label ℕ Unit ℕ) :=
  [(.waker 0, .enqueueGlobal), (.worker 0, .refill), (.worker 0, .dequeue), (.worker 0, .step),
    (.worker 0, .step), (.worker 0, .step), (.waker 1, .wake), (.waker 1, .enqueueLocal 1),
    (.worker 1, .dequeue), (.worker 1, .step)]

theorem stateMachine_wokenWhilePolled : ∃ c, (machine ℕ Unit ℕ).Reachable c ∧
    c.shared.state = .notified ∧ c.shared.trace = [.polled 0] ∧ StateMachine c := by
  have hr := Machine.ReachableUnder.of_isSome_exec (m := machine ℕ Unit ℕ)
    (G := fun _ _ ↦ True) (.init rfl) wokenWhilePolled (by decide) (by decide)
  exact ⟨_, hr, by decide, by decide, stateMachine_of_reachable _ hr⟩

end ArcDischarge.Task
