import ArcDischarge.Task.Coherence

/-!
# Join results are faithful

Completion and cancellation may race for the value under the mutex, and `take_output` puts
`Err(Aborted)` in the place of what it takes. Yet the first output the joiner gets is the one that
the history of the future calls for: the value is written once, by the poll that finished or by the
cancellation that dropped the future, and the joiner takes it before it takes the placeholder.

A cancellation takes effect with its update of the state byte. A worker that is the poll owner at
that moment, and has not yet started its poll, still polls the future once.
-/

namespace ArcDischarge.Task

variable {V P W : Type*}

/-- The shared part: the value, the first output taken and the first returned agree with the
history. -/
structure Faithful (m : Shared V P W) : Prop where
  untaken : ∀ val, m.taken = none → m.inner = .ret val → phase m.trace = some (.gone val)
  taken : ∀ val, m.taken = some val → phase m.trace = some (.gone val)
  joined : ∀ val, m.joined = some val → m.taken = some val
  cancelled : m.state = .cancelled → sinceCancel m.trace ≠ none
  ended : sinceCancel m.trace ≠ none → m.state.ended
  owner : ∀ o ws w, sinceCancel m.trace = some (o, ws) → m.owner = some w → o = some w
  polls : ∀ o ws, sinceCancel m.trace = some (o, ws) → ws = [] ∨ ∃ w, o = some w ∧ ws = [w]
  aborted : phase m.trace = some (.gone (.error .aborted)) →
    ∃ l, m.trace = l ++ [.aborted] ∧ sinceCancel l ≠ none

/-- The part of one agent. -/
structure Waits (i : Agent) (m : Shared V P W) (p : Pc V P W) : Prop where
  finishing : p = .cancelLock ∨ p = .cancelSet → sinceCancel m.trace ≠ none
  /-- An owner that has not started its poll is the only one that may. -/
  before : ∀ w, i = .worker w → p = .lock ∨ p = .enter →
    ∀ o ws, sinceCancel m.trace = some (o, ws) → ws = []
  holding : ∀ call again val, i = .joiner → p = .takeUnlock call again (some val) →
    m.joined = none → m.taken = some val
  resting : i = .joiner → (∀ call again val, p ≠ .takeUnlock call again (some val)) →
    m.joined = m.taken

variable {m m' : Shared V P W} {p p' q : Pc V P W} {a : Label V P W} {i j : Agent}

/-! ## What a step does to the outputs and to the cancellation -/

theorem Move.taken_eq (h : Move m i p a m' p') (hi : i ≠ .joiner) :
    m'.taken = m.taken ∧ m'.joined = m.joined := by
  cases h with
  | _ => first | exact ⟨rfl, rfl⟩ | exact absurd rfl hi

/-- A cancellation that has taken effect stays in the history. -/
theorem Move.sinceCancel_ne_none (h : Move m i p a m' p') (hlog : sinceCancel m.trace ≠ none) :
    sinceCancel m'.trace ≠ none := by
  cases h with
  | enter => simpa using hlog
  | pending | finish | abort => simpa using hlog
  | cancelUpdate => simp
  | _ => exact hlog

/-- A cancellation takes effect with the poll owner of that moment, and polls are added after it. -/
theorem Move.sinceCancel_eq_some (h : Move m i p a m' p') {o : Option ℕ} {ws : List ℕ}
    (hlog : sinceCancel m'.trace = some (o, ws)) :
    sinceCancel m.trace = some (o, ws) ∨
      (m'.state = .cancelled ∧ o = m.owner ∧ m'.owner = m.owner ∧ ws = []) ∨
      ∃ w ws', i = .worker w ∧ p = .enter ∧ sinceCancel m.trace = some (o, ws') ∧
        ws = ws' ++ [w] := by
  cases h with
  | @enter w =>
    simp only [sinceCancel_append_polled, Option.map_eq_some_iff, Prod.mk.injEq] at hlog
    obtain ⟨⟨o', ws'⟩, hlog, rfl, rfl⟩ := hlog
    exact Or.inr (Or.inr ⟨w, ws', rfl, rfl, hlog, rfl⟩)
  | pending | finish | abort => exact Or.inl (by simpa using hlog)
  | cancelUpdate =>
    simp only [sinceCancel_append_cancelled] at hlog
    cases hold : sinceCancel m.trace with
    | none =>
      rw [hold, Option.none_or, Option.some.injEq, Prod.mk.injEq] at hlog
      exact Or.inr (Or.inl ⟨rfl, hlog.1.symm, rfl, hlog.2.symm⟩)
    | some log => exact Or.inl (by simpa [hold] using hlog)
  | _ => exact Or.inl hlog

/-- The value, and what has been taken of it, against the phase of the future. -/
theorem Faithful.values (hm : Coherent m) (hp : Ok i m p) (hF : Faithful m)
    (h : Move m i p a m' p') :
    (∀ val, m'.taken = none → m'.inner = .ret val → phase m'.trace = some (.gone val)) ∧
      ∀ val, m'.taken = some val → phase m'.trace = some (.gone val) := by
  -- what has been taken is there to stay
  have hstay {val : Output V P} (hval : phase m.trace = some (.gone val)) :
      phase m'.trace = some (.gone val) := by
    cases h.phaseStep hm hp with
    | keep heq _ _ => rwa [heq]
    | start _ _ _ _ h _ | pend _ _ _ _ h _ => simp [h] at hval
    | gone _ _ _ _ h _ => rcases h with h | h <;> simp [h] at hval
  cases h with
  | @take _ _ val h =>
    refine ⟨by simp, fun val' hval' ↦ ?_⟩
    cases htaken : m.taken with
    | none =>
      obtain rfl : val = val' := by simpa [htaken] using hval'
      exact hF.untaken val htaken h
    | some out => exact hF.taken val' (by simpa [htaken] using hval')
  | @finish w o val h =>
    have hphase := phase_append_finish ((hp.polling w rfl).mp rfl) h
    refine ⟨fun val' _ hinner ↦ ?_, fun val hval ↦ hstay (hF.taken val hval)⟩
    obtain rfl : val = val' := by simpa using hinner
    exact hphase
  | abort h =>
    have hphase := phase_append_aborted (hm.phase_eq_alive hp rfl trivial (by simp) h)
    refine ⟨fun val' _ hinner ↦ ?_, fun val hval ↦ hstay (hF.taken val hval)⟩
    obtain rfl : .error .aborted = val' := by simpa using hinner
    exact hphase
  | _ => exact ⟨fun val htaken hinner ↦ hstay (hF.untaken val htaken hinner),
      fun val hval ↦ hstay (hF.taken val hval)⟩

theorem Faithful.joined_eq (hF : Faithful m) (hW : Waits i m p) (h : Move m i p a m' p')
    {val : Output V P} (hval : m'.joined = some val) : m'.taken = some val := by
  cases h with
  | @take _ _ out =>
    have htaken := hF.joined val hval
    simp [htaken]
  | @joinReady call again out =>
    cases hjoined : m.joined with
    | none =>
      obtain rfl : out = val := by simpa [hjoined] using hval
      exact hW.holding call again out rfl rfl hjoined
    | some out' => exact hF.joined val (by simpa [hjoined] using hval)
  | _ => exact hF.joined val hval

/-- A future is dropped by a cancellation only after a cancellation has taken effect, and then
nothing happens to it any more. -/
theorem Faithful.aborted_eq (hm : Coherent m) (hp : Ok i m p) (hF : Faithful m) (hW : Waits i m p)
    (h : Move m i p a m' p') (hphase : phase m'.trace = some (.gone (.error .aborted))) :
    ∃ l, m'.trace = l ++ [.aborted] ∧ sinceCancel l ≠ none := by
  cases h with
  | abort => exact ⟨m.trace, rfl, hW.finishing (Or.inr rfl)⟩
  | @finish w o val h =>
    rw [phase_append_finish ((hp.polling w rfl).mp rfl) h] at hphase
    obtain rfl : val = .error .aborted := by simpa using hphase
    cases o <;> simp [Outcome.output] at h
  | enter h =>
    rw [phase_append_polled (hm.phase_eq_alive hp rfl trivial (by simp) h)] at hphase
    simp at hphase
  | @pending w o h =>
    rw [phase_append_pending ((hp.polling w rfl).mp rfl) h] at hphase
    simp at hphase
  | cancelUpdate h =>
    rw [phase_append_cancelled] at hphase
    obtain ⟨l, hl, hlog⟩ := hF.aborted hphase
    have hended := hF.ended (by rwa [hl, sinceCancel_append_aborted])
    cases hs : m.state with
    | completed => exact absurd hs h.1
    | cancelled => exact absurd hs h.2
    | idle | running | notified => simp [hs, Status.ended] at hended
  | _ => exact hF.aborted hphase

/-- The state byte and the poll owner against the cancellation. -/
theorem Move.owner_of_ended (h : Move m i p a m' p') (hended : m.state.ended) {w : ℕ}
    (hw : m'.owner = some w) : m.owner = some w := by
  cases h with
  | win h => simp [h, Status.ended] at hended
  | store | close | closeNotified | closeCancelled | closeNothing => cases hw
  | _ => exact hw

/-- The state is set to `CANCELLED` by the update with which a cancellation takes effect. -/
theorem Move.cancelled_of_state (h : Move m i p a m' p') (hstate : m'.state = .cancelled) :
    m.state = .cancelled ∨ sinceCancel m'.trace ≠ none := by
  cases h with
  | cancelUpdate => exact Or.inr (by simp)
  | win | notify | store | close | closeNotified | cancelStore => cases hstate
  | _ => exact Or.inl hstate

theorem Faithful.cancellation (hp : Ok i m p) (hF : Faithful m) (hW : Waits i m p)
    (h : Move m i p a m' p') :
    (m'.state = .cancelled → sinceCancel m'.trace ≠ none) ∧
      (sinceCancel m'.trace ≠ none → m'.state.ended) ∧
      (∀ o ws w, sinceCancel m'.trace = some (o, ws) → m'.owner = some w → o = some w) ∧
      ∀ o ws, sinceCancel m'.trace = some (o, ws) → ws = [] ∨ ∃ w, o = some w ∧ ws = [w] := by
  have hended {o : Option ℕ} {ws : List ℕ} (hlog : sinceCancel m.trace = some (o, ws)) :
      m.state.ended := hF.ended (by simp [hlog])
  refine ⟨fun hstate ↦ ?_, fun hlog ↦ ?_, fun o ws w hlog hw ↦ ?_, fun o ws hlog ↦ ?_⟩
  · rcases h.cancelled_of_state hstate with hold | hlog
    · exact h.sinceCancel_ne_none (hF.cancelled hold)
    · exact hlog
  · obtain ⟨⟨o, ws⟩, hlog⟩ := Option.ne_none_iff_exists'.mp hlog
    rcases h.sinceCancel_eq_some hlog with hold | ⟨hstate, -⟩ | ⟨w, ws', -, -, hold, -⟩
    · exact h.ended (hended hold)
    · simp [hstate, Status.ended]
    · exact h.ended (hended hold)
  · rcases h.sinceCancel_eq_some hlog with hold | ⟨-, ho, howner, -⟩ | ⟨w', ws', -, -, hold, -⟩
    · exact hF.owner o ws w hold (h.owner_of_ended (hended hold) hw)
    · rw [ho, ← howner, hw]
    · exact hF.owner o ws' w hold (h.owner_of_ended (hended hold) hw)
  · rcases h.sinceCancel_eq_some hlog with hold | ⟨-, -, -, hws⟩ | ⟨w, ws', hi, hpc, hold, hws⟩
    · exact hF.polls o ws hold
    · exact Or.inl hws
    · have hempty := hW.before w hi (Or.inr hpc) o ws' hold
      have howner := (hp.owns w hi).mp (by rw [hpc]; trivial)
      exact Or.inr ⟨w, hF.owner o ws' w hold howner, by rw [hws, hempty, List.nil_append]⟩

theorem Faithful.move (hm : Coherent m) (hp : Ok i m p) (hF : Faithful m) (hW : Waits i m p)
    (h : Move m i p a m' p') : Faithful m' := by
  obtain ⟨huntaken, htaken⟩ := hF.values hm hp h
  obtain ⟨hcancelled, hended, howner, hpolls⟩ := hF.cancellation hp hW h
  exact ⟨huntaken, htaken, fun _ hval ↦ hF.joined_eq hW h hval, hcancelled, hended, howner, hpolls,
    hF.aborted_eq hm hp hW h⟩

/-! ## What an agent waits for -/

theorem Waits.own (hF : Faithful m) (hW : Waits i m p) (h : Move m i p a m' p') :
    Waits i m' p' := by
  refine ⟨fun hp' ↦ ?_, fun w hi hp' o ws hlog ↦ ?_, fun call again val hi hp' hjoined ↦ ?_,
    fun hi hp' ↦ ?_⟩
  · cases h with
    | runCancelled hs | closeCancelled hs => exact hF.cancelled hs
    | cancelLock => exact hW.finishing (Or.inl rfl)
    | _ => simp at hp'
  · cases h with
    | win hs =>
      -- a task that can still be won has not been cancelled
      have hended := hF.ended (by simp [hlog])
      simp [hs, Status.ended] at hended
    | lock => exact hW.before w hi (Or.inl rfl) o ws hlog
    | _ => simp at hp'
  · cases h with
    | take =>
      cases hp'
      have htaken := hW.resting rfl (by simp)
      simp [← htaken, show m.joined = none from hjoined]
    | _ => simp at hp'
  · cases h with
    | @joinReady call again val =>
      cases hjoined : m.joined with
      | none => simp [hW.holding call again val rfl rfl hjoined]
      | some out => simp [hF.joined out hjoined]
    | take => simp at hp'
    | _ => first | exact hW.resting rfl (by simp) | cases hi

theorem Waits.other (hp : Ok i m p) (h : Move m i p a m' p') (hne : j ≠ i) (hq : Ok j m q)
    (hW : Waits j m q) : Waits j m' q := by
  refine ⟨fun hq' ↦ h.sinceCancel_ne_none (hW.finishing hq'), fun w hj hq' o ws hlog ↦ ?_,
    fun call again val hj ↦ ?_, fun hj ↦ ?_⟩
  · rcases h.sinceCancel_eq_some hlog with hold | ⟨-, -, -, hws⟩ | ⟨w', ws', hi, hpc, -, -⟩
    · exact hW.before w hj hq' o ws hold
    · exact hws
    · -- two agents would own the poll
      have hown := (hp.owns w' hi).mp (by rw [hpc]; trivial)
      have hown' := (hq.owns w hj).mp (by rcases hq' with hq' | hq' <;> rw [hq'] <;> trivial)
      obtain rfl : w = w' := by simpa [hown] using hown'.symm
      exact absurd (hj.trans hi.symm) hne
  · obtain ⟨htaken, hjoined⟩ := h.taken_eq fun hi ↦ hne (hj.trans hi.symm)
    rw [htaken, hjoined]
    exact hW.holding call again val hj
  · obtain ⟨htaken, hjoined⟩ := h.taken_eq fun hi ↦ hne (hj.trans hi.symm)
    rw [htaken, hjoined]
    exact hW.resting hj

theorem faithful_of_reachable {c : State V P W} (h : (machine V P W).Reachable c) :
    System.Holds Faithful Waits c := by
  refine System.holds_of_reachableUnder h ?_ ?_ ?_
  · rintro _ rfl
    refine ⟨by constructor <;> simp [State.new, Shared.new, sinceCancel], fun i ↦ ?_⟩
    by_cases hi : i = .waker 0
    · subst hi
      constructor <;> simp [State.new]
    · constructor <;> simp [State.new, Shared.new, hi]
  · rintro c i a m p hc ⟨hF, hW⟩ - hstep
    obtain ⟨hm, hp⟩ := coherent_of_reachable hc
    have hmove := move_of_step hstep
    exact ⟨hF.move hm (hp i) (hW i) hmove, (hW i).own hF hmove⟩
  · rintro c i a m p hc ⟨hF, hW⟩ - hstep j hj
    have hp := (coherent_of_reachable hc).2
    exact Waits.other (hp i) (move_of_step hstep) hj (hp j) (hW j)

/-! ## The first output -/

/-- An output is the one that the history calls for. After a cancellation has taken effect, with a
given poll owner, the future may be polled as `polls` allows, until it is dropped. -/
structure JoinsAs (polls : Option ℕ → List ℕ → Prop) (trace : List (Event V P))
    (out : Output V P) : Prop where
  ok : ∀ v, out = .ok v ↔ lastPoll trace = some (.ready v)
  panic : ∀ p, out = .error (.panic p) ↔ lastPoll trace = some (.panicked p)
  aborted : out = .error .aborted → ∃ l o ws, trace = l ++ [.aborted] ∧
    (∀ r ∈ outcomes l, r = .pending) ∧ sinceCancel l = some (o, ws) ∧ polls o ws

/-- No poll, or one by the worker that was the poll owner when the cancellation took effect. -/
def OwnerOnly (owner : Option ℕ) (ws : List ℕ) : Prop :=
  ws = [] ∨ ∃ w, owner = some w ∧ ws = [w]

theorem lastPoll_eq_some {trace : List (Event V P)} {out : Output V P}
    (h : phase trace = some (.gone out)) :
    (∀ v, out = .ok v ↔ lastPoll trace = some (.ready v)) ∧
      ∀ p, out = .error (.panic p) ↔ lastPoll trace = some (.panicked p) := by
  have hexplains := explains_of_phase h
  unfold lastPoll
  cases out with
  | ok v =>
    obtain ⟨l, hl, -⟩ := hexplains
    simp [hl]
  | error e =>
    cases e with
    | panic p =>
      obtain ⟨l, hl, -⟩ := hexplains
      simp [hl]
    | aborted =>
      have hlast (o : Outcome V P) (ho : o ≠ .pending) :
          (outcomes trace).getLast? ≠ some o := fun heq ↦
        ho (hexplains o (List.mem_of_getLast? heq))
      simp [hlast]

/-- Only `take_output` replaces a published result. -/
theorem Move.inner_eq (h : Move m i p a m' p') (hp : Ok i m p) {val : Output V P}
    (hinner : m.inner = .ret val) (hi : i ≠ .joiner) : m'.inner = .ret val := by
  cases h with
  | finish =>
    -- a worker that polls has found the future
    have hfuture : m.inner = .future := hp.knows
    rw [hfuture] at hinner
    cases hinner
  | abort h =>
    rw [h] at hinner
    cases hinner
  | take => exact absurd rfl hi
  | _ => exact hinner

/-- **Join results are faithful**: the first output that `JoinHandle::poll` returns is the one that
the history of the future calls for, and no other agent replaces a published result. -/
theorem joinsAs_of_reachable (c : State V P W) (h : (machine V P W).Reachable c) :
    (∀ out, c.shared.joined = some out → JoinsAs OwnerOnly c.shared.trace out) ∧
      ∀ i a d val, (machine V P W).step c (i, a) = some d → i ≠ .joiner →
        c.shared.inner = .ret val → d.shared.inner = .ret val := by
  obtain ⟨-, hp⟩ := coherent_of_reachable h
  obtain ⟨hF, -⟩ := faithful_of_reachable h
  refine ⟨fun out hout ↦ ?_, fun i a d val hstep hi hinner ↦ ?_⟩
  · have hphase := hF.taken out (hF.joined out hout)
    obtain ⟨hok, hpanic⟩ := lastPoll_eq_some hphase
    refine ⟨hok, hpanic, ?_⟩
    rintro rfl
    obtain ⟨l, hl, hlog⟩ := hF.aborted hphase
    have hpending := explains_of_phase hphase
    obtain ⟨⟨o, ws⟩, hws⟩ := Option.ne_none_iff_exists'.mp hlog
    refine ⟨l, o, ws, hl, fun r hr ↦ hpending r ?_, hws, hF.polls o ws ?_⟩
    · rw [hl, outcomes_append]
      exact List.mem_append_left _ hr
    · rw [hl, sinceCancel_append_aborted, hws]
  · obtain ⟨m, p, hs, rfl⟩ := System.machine_step_eq_some.mp hstep
    exact (move_of_step hs).inner_eq (hp i) hinner hi

/-- Worker 0 wins; then the task is cancelled; then worker 0 polls it once more, to `Pending`, and
drops it; and the joiner takes the output. -/
def cancelledOwner : List (Agent × Label ℕ Unit ℕ) :=
  [(.waker 0, .enqueueGlobal), (.worker 0, .refill), (.worker 0, .dequeue), (.worker 0, .step),
    (.canceller 0, .cancel), (.canceller 0, .step), (.worker 0, .step), (.worker 0, .step),
    (.worker 0, .outcome .pending)] ++ List.replicate 7 (.worker 0, .step) ++
    [(.joiner, .join 7), (.joiner, .step), (.joiner, .step), (.joiner, .step)]

def cancelledState : State ℕ Unit ℕ :=
  ((machine ℕ Unit ℕ).exec .new cancelledOwner).get (by decide)

theorem reachable_cancelledState : (machine ℕ Unit ℕ).Reachable cancelledState :=
  .of_exec (.init rfl) (Option.some_get _).symm

/-- An aborted future may have been polled after the cancellation took effect. -/
theorem polled_after_cancel : ¬∀ c : State ℕ Unit ℕ, (machine ℕ Unit ℕ).Reachable c →
    ∀ out, c.shared.joined = some out →
      JoinsAs (fun _ ws ↦ ws = []) c.shared.trace out := by
  intro h
  obtain ⟨l, o, ws, hl, -, hlog, rfl⟩ :=
    (h cancelledState reachable_cancelledState (.error .aborted) rfl).aborted rfl
  have hcancel : sinceCancel cancelledState.shared.trace = some (some 0, [0]) := by decide
  rw [hl, sinceCancel_append_aborted, hlog] at hcancel
  simp at hcancel

theorem joinsAs_cancelledState : cancelledState.shared.joined = some (.error .aborted) ∧
    JoinsAs OwnerOnly cancelledState.shared.trace (.error .aborted) :=
  ⟨rfl, (joinsAs_of_reachable cancelledState reachable_cancelledState).1 _ rfl⟩

end ArcDischarge.Task
