import ArcDischarge.Task.Coherence

/-!
# Panics in the future's destructor

`catch_unwind` in `JoinInner::poll` covers the poll of the user's future and nothing else. The
future is dropped outside it: when a finished poll is replaced by its result, when
`finish_cancellation` replaces it, and when a `run` that returns gives back the last reference to
the task. If the destructor panics there, the assignment has stored the new value, the guard of the
mutex is released, and the panic goes on into the worker loop.

The machine of a task is extended by this: a step that runs the destructor may unwind instead, and
the worker is gone then. A run in which no destructor panics is a run of the task's own machine.
-/

namespace ArcDischarge.Task

variable {V P W : Type*}

def JoinInner.isFuture : JoinInner V P → Bool
  | .future => true
  | .ret _ => false

/-- Outside any call. -/
def Pc.isIdle : Pc V P W → Bool
  | .idle => true
  | _ => false

/-- At `self.waker.wake()`. -/
def Pc.wakes : Pc V P W → Bool
  | .wakeReady | .cancelWake _ => true
  | _ => false

namespace Unwind

/-- How a call of `Task::run` has ended. -/
structure Exit (W : Type*) where
  /-- The call has replaced the future by a `Return`. -/
  replaced : Bool
  /-- The state byte when the call ends. -/
  state : Status
  /-- The waker in the `AtomicWaker` before the last step of the call. -/
  registered : Option W
  /-- And after it. -/
  left : Option W
  /-- The wakers that this step has woken. -/
  woken : List W
  /-- The call has unwound into the worker loop. -/
  unwound : Bool
  deriving DecidableEq, Repr

/-- A call ends with a step from `m` to `m'`. -/
def Exit.ofStep (replaced : Bool) (m m' : Task.Shared V P W) (unwound : Bool) : Exit W :=
  ⟨replaced, m'.state, m.waker, m'.waker, m'.woken.drop m.woken.length, unwound⟩

/-- The waker that the joiner has registered, if there is one, is taken out and woken. -/
def Exit.Woke (e : Exit W) : Prop := e.left = none ∧ e.woken = e.registered.toList

theorem Exit.woke_wake (replaced : Bool) (m : Task.Shared V P W) (unwound : Bool) :
    (Exit.ofStep replaced m m.wake unwound).Woke :=
  ⟨rfl, List.drop_left⟩

structure Shared (V P W : Type*) where
  task : Task.Shared V P W
  /-- The last reference to the task is gone. -/
  freed : Bool
  /-- The calls of `run` that have ended. No step reads this. -/
  exits : List (Exit W)

structure Local (V P W : Type*) where
  pc : Pc V P W
  /-- The current call of `run` has replaced the future. -/
  replaced : Bool
  /-- The worker's thread has been unwound. -/
  unwound : Bool

structure Label (V P W : Type*) where
  action : Task.Label V P W
  /-- The destructor of the future panics, if the step runs it. -/
  dropPanics : Bool
  /-- A call of `run` that the step ends gives back the last reference to the task. -/
  lastRef : Bool
  deriving DecidableEq, Repr

/-! ## The steps -/

/-- The step from `m` to `m'` assigns a `Return` over the future. -/
def replaces (m m' : Task.Shared V P W) : Bool := m.inner.isFuture && !m'.inner.isFuture

/-- The step from `p` to `p'` ends a call of `run`. -/
def ends (p p' : Pc V P W) : Bool := p'.isIdle && !p.isIdle

/-- The step drops the future: it assigns over it, or it ends a call that has the last reference. -/
def drops (m m' : Task.Shared V P W) (p p' : Pc V P W) (a : Label V P W) : Bool :=
  replaces m m' || (ends p p' && a.lastRef && m'.inner.isFuture)

/-- What a worker's step to `m'` and `p'` amounts to. An assignment over the future whose destructor
panics has stored the new value, and the unwinding releases the guard. -/
def workerEnd (m : Shared V P W) (ℓ : Local V P W) (a : Label V P W) (m' : Task.Shared V P W)
    (p' : Pc V P W) : Shared V P W × Local V P W :=
  let replaced := ℓ.replaced || replaces m.task m'
  if replaces m.task m' && a.dropPanics then
    ({ m with task := { m' with lock := none }
              exits := m.exits ++ [.ofStep replaced m.task m' true] }, ⟨.idle, false, true⟩)
  else if ends ℓ.pc p' then
    let unwound := a.lastRef && m'.inner.isFuture && a.dropPanics
    (⟨m', a.lastRef, m.exits ++ [.ofStep replaced m.task m' unwound]⟩, ⟨p', false, unwound⟩)
  else ({ m with task := m' }, ⟨p', replaced, false⟩)

/-- One step of an agent. Nothing happens to a task that is freed, and a worker that is unwound does
nothing. -/
def step (i : Agent) (m : Shared V P W) (ℓ : Local V P W) (a : Label V P W) :
    Option (Shared V P W × Local V P W) :=
  if m.freed || ℓ.unwound then none
  else (Task.step i m.task ℓ.pc a.action).map fun r ↦
    match i with
    | .worker _ => workerEnd m ℓ a r.1 r.2
    | _ => ({ m with task := r.1 }, ⟨r.2, false, false⟩)

abbrev State (V P W : Type*) := Config Agent (Shared V P W) (Local V P W)

def State.new : State V P W where
  shared := ⟨.new, false, []⟩
  pc i := ⟨Task.State.new.pc i, false, false⟩

def system (V P W : Type*) : System Agent (Shared V P W) (Local V P W) (Label V P W) where
  init c := c = State.new
  step := step

abbrev machine (V P W : Type*) : Machine (State V P W) (Agent × Label V P W) :=
  (system V P W).machine

/-- The destructor of the future returns, if the step runs it. -/
def Quiet (c : State V P W) : Agent × Label V P W → Prop
  | (.worker w, a) => c.shared.freed = false → (c.pc (.worker w)).unwound = false →
    ∀ r ∈ workerStep w c.shared.task (c.pc (.worker w)).pc a.action,
      drops c.shared.task r.1 (c.pc (.worker w)).pc r.2 a = true → a.dropPanics = false
  | _ => True

/-- Panics stay within the task: no worker is unwound, and a call of `run` that has replaced the
future ends with the state `COMPLETED` and the waker that the joiner has registered woken. -/
structure Contained (c : State V P W) : Prop where
  workers : ∀ i, (c.pc i).unwound = false
  exits : ∀ e ∈ c.shared.exits, e.unwound = false ∧
    (e.replaced = true → e.state = .completed ∧ e.Woke)

/-! ## What a step can do -/

section

variable {m m' : Shared V P W} {ℓ ℓ' : Local V P W} {a : Label V P W} {i : Agent}
  {t : Task.Shared V P W} {p : Pc V P W}

/-- The ends of a step that takes the task to `t` and the agent to `p`. -/
inductive Effect (m : Shared V P W) (ℓ : Local V P W) (a : Label V P W) (t : Task.Shared V P W)
    (p : Pc V P W) : Shared V P W → Local V P W → Prop where
  | unwind {m' : Shared V P W} {ℓ' : Local V P W} {e : Exit W}
      (hdrops : drops m.task t ℓ.pc p a = true) (hpanics : a.dropPanics = true)
      (hexits : m'.exits = m.exits ++ [e]) (he : e.unwound = true) :
      Effect m ℓ a t p m' ℓ'
  | ret (hends : ends ℓ.pc p = true)
      (hquiet : a.dropPanics = true → drops m.task t ℓ.pc p a = false) :
      Effect m ℓ a t p
        ⟨t, a.lastRef, m.exits ++ [.ofStep (ℓ.replaced || replaces m.task t) m.task t false]⟩
        ⟨p, false, false⟩
  | goOn (replaced : Bool) (hends : ends ℓ.pc p = false)
      (hreplaced : replaced = true → ℓ.replaced = true ∨ replaces m.task t = true)
      (hquiet : a.dropPanics = true → drops m.task t ℓ.pc p a = false) :
      Effect m ℓ a t p { m with task := t } ⟨p, replaced, false⟩

theorem effect_workerEnd (m : Shared V P W) (ℓ : Local V P W) (a : Label V P W)
    (t : Task.Shared V P W) (p : Pc V P W) :
    Effect m ℓ a t p (workerEnd m ℓ a t p).1 (workerEnd m ℓ a t p).2 := by
  cases hreplaces : replaces m.task t && a.dropPanics with
  | true =>
    obtain ⟨hreplaces', hpanics⟩ := Bool.and_eq_true_iff.mp hreplaces
    rw [workerEnd, if_pos hreplaces]
    exact .unwind (by rw [drops, hreplaces', Bool.true_or]) hpanics rfl rfl
  | false =>
    cases hends : ends ℓ.pc p with
    | true =>
      rw [workerEnd, if_neg (by rw [hreplaces]; exact Bool.false_ne_true), if_pos hends]
      cases hlast : a.lastRef && t.inner.isFuture && a.dropPanics with
      | true =>
        obtain ⟨hlast', hpanics⟩ := Bool.and_eq_true_iff.mp hlast
        exact .unwind (by rw [drops, hends, Bool.true_and, hlast', Bool.or_true]) hpanics rfl rfl
      | false =>
        refine .ret hends fun hpanics ↦ ?_
        rw [hpanics, Bool.and_true] at hreplaces hlast
        rw [drops, hends, Bool.true_and, hlast, hreplaces, Bool.or_false]
    | false =>
      rw [workerEnd, if_neg (by rw [hreplaces]; exact Bool.false_ne_true),
        if_neg (by rw [hends]; exact Bool.false_ne_true)]
      refine .goOn _ hends (by simp) fun hpanics ↦ ?_
      simpa [drops, hends, hpanics] using hreplaces

theorem effect_of_step (h : step i m ℓ a = some (m', ℓ')) : ℓ.unwound = false ∧ m.freed = false ∧
    ∃ t p, Task.step i m.task ℓ.pc a.action = some (t, p) ∧
      (Effect m ℓ a t p m' ℓ' ∧ (∃ w, i = .worker w) ∨
        (∀ w, i ≠ .worker w) ∧ m' = { m with task := t } ∧ ℓ' = ⟨p, false, false⟩) := by
  unfold step at h
  split at h
  · cases h
  · rename_i hgone
    rw [Bool.or_eq_true, not_or, Bool.not_eq_true, Bool.not_eq_true] at hgone
    obtain ⟨⟨t, p⟩, htask, heq⟩ := Option.map_eq_some_iff.mp h
    refine ⟨hgone.2, hgone.1, t, p, htask, ?_⟩
    cases i with
    | worker w =>
      have heffect := effect_workerEnd m ℓ a t p
      simp only at heq
      rw [heq] at heffect
      exact .inl ⟨heffect, w, rfl⟩
    | _ =>
      cases heq
      exact .inr ⟨by simp, rfl, rfl⟩

end

/-! ## The task's own machine -/

/-- Where a call of `run` stands once it has replaced the future. -/
def AfterReplacing : Pc V P W → Prop
  | .store | .unlockReady | .wakeReady => True
  | .cancelStore published | .cancelUnlock published | .cancelWake published => published = true
  | _ => False

section

variable {t t' : Task.Shared V P W} {p p' : Pc V P W} {a : Task.Label V P W} {i : Agent}

/-- A call that has replaced the future does not return before it has woken the joiner. -/
theorem afterReplacing_of_move (h : Move t i p a t' p')
    (hreplaced : AfterReplacing p ∨ replaces t t' = true) :
    (ends p p' = false → AfterReplacing p') ∧
      (ends p p' = true → p.wakes = true ∧ t' = t.wake) := by
  cases h with
  | finish | store | unlockReady => exact ⟨fun _ ↦ trivial, by simp [ends, Pc.isIdle]⟩
  | abort => exact ⟨fun _ ↦ rfl, by simp [ends, Pc.isIdle]⟩
  | cancelStore | cancelUnlock =>
    refine ⟨fun _ ↦ hreplaced.elim id fun h ↦ ?_, by simp [ends, Pc.isIdle]⟩
    simp [replaces] at h
  | wakeReady | cancelWake => exact ⟨by simp [ends, Pc.isIdle], fun _ ↦ ⟨rfl, rfl⟩⟩
  | take h => simp [AfterReplacing, replaces, h, JoinInner.isFuture] at hreplaced
  | _ => simp [AfterReplacing, replaces, Shared.scheduleGlobal] at hreplaced

end

/-- The task's part of a state. -/
def project (c : State V P W) : Task.State V P W := ⟨c.shared.task, fun i ↦ (c.pc i).pc⟩

/-- The state is one of the task's own machine, as long as no call has unwound. -/
structure Tracks (c : State V P W) : Prop where
  reachable : (Task.machine V P W).Reachable (project c)
  workers : ∀ i, (c.pc i).unwound = false
  replaced : ∀ i, (c.pc i).replaced = true → AfterReplacing (c.pc i).pc

theorem Tracks.step {c : State V P W} {i : Agent} {a : Label V P W} {m : Shared V P W}
    {p : Pc V P W} {replaced : Bool} (hc : Tracks c)
    (hs : Task.step i c.shared.task (c.pc i).pc a.action = some (m.task, p))
    (hreplaced : replaced = true → AfterReplacing p) :
    Tracks ⟨m, Function.update c.pc i ⟨p, replaced, false⟩⟩ := by
  refine ⟨?_, fun j ↦ ?_, fun j ↦ ?_⟩
  · refine .step (a := (i, a.action)) hc.reachable trivial
      (System.machine_step_eq_some.mpr ⟨m.task, p, hs, ?_⟩)
    refine congrArg (Config.mk m.task) (funext fun j ↦ ?_)
    by_cases hj : j = i
    · subst hj
      simp
    · simp [hj, project]
  · by_cases hj : j = i
    · subst hj
      simp
    · simpa [hj] using hc.workers j
  · by_cases hj : j = i
    · subst hj
      simpa using hreplaced
    · simpa [hj] using hc.replaced j

theorem tracks_of_reachable {c : State V P W} (h : (machine V P W).Reachable c)
    (hquiet : ∀ e ∈ c.shared.exits, e.unwound = false) : Tracks c := by
  revert hquiet
  refine System.invariant (I := fun c ↦ (∀ e ∈ c.shared.exits, e.unwound = false) → Tracks c) h ?_
    fun c i a m ℓ _ hI _ hs hquiet ↦ ?_
  · rintro _ rfl -
    exact ⟨.init rfl, fun _ ↦ rfl, fun _ h ↦ absurd h Bool.false_ne_true⟩
  obtain ⟨-, -, t, p, htask, hend⟩ := effect_of_step hs
  have hmove := move_of_step htask
  rcases hend with ⟨heffect, -⟩ | ⟨-, rfl, rfl⟩
  · cases heffect with
    | unwind _ _ hexits he =>
      have := hquiet _ (by rw [hexits]; exact List.mem_append_right _ List.mem_cons_self)
      simp [he] at this
    | ret =>
      exact (hI fun e he ↦ hquiet e (List.mem_append_left _ he)).step htask
        fun h ↦ absurd h Bool.false_ne_true
    | goOn replaced hends hreplaced =>
      have hc := hI hquiet
      exact hc.step htask fun h ↦
        (afterReplacing_of_move hmove ((hreplaced h).imp_left (hc.replaced i))).1 hends
  · exact (hI hquiet).step htask fun h ↦ absurd h Bool.false_ne_true

/-! ## Exactly when panics are contained -/

/-- A call at `self.waker.wake()` has stored `COMPLETED`. -/
theorem state_of_wakes {c : Task.State V P W} {i : Agent} (h : (Task.machine V P W).Reachable c)
    (hp : (c.pc i).wakes = true) : c.shared.state = .completed := by
  have hknows := ((coherent_of_reachable h).2 i).knows
  cases hpc : c.pc i with
  | wakeReady | cancelWake published =>
    rw [hpc] at hknows
    exact hknows
  | _ => simp [hpc, Pc.wakes] at hp

theorem Contained.exits_step {c d : State V P W} {a : Agent × Label V P W}
    (hr : (machine V P W).Reachable c) (hc : Contained c) (hquiet : Quiet c a)
    (hs : (machine V P W).step c a = some d) : ∀ e ∈ d.shared.exits, e.unwound = false ∧
      (e.replaced = true → e.state = .completed ∧ e.Woke) := by
  obtain ⟨i, a⟩ := a
  obtain ⟨m, ℓ, hstep, rfl⟩ := System.machine_step_eq_some.mp hs
  obtain ⟨hunwound, hfreed, t, p, htask, hend⟩ := effect_of_step hstep
  rcases hend with ⟨heffect, w, rfl⟩ | ⟨-, rfl, rfl⟩
  · cases heffect with
    | unwind hdrops hpanics =>
      rw [hquiet hfreed hunwound (t, p) htask hdrops] at hpanics
      cases hpanics
    | ret hends =>
      have htracks := tracks_of_reachable hr fun e he ↦ (hc.exits e he).1
      intro e he
      rcases List.mem_append.mp he with he | he
      · exact hc.exits e he
      · rw [List.mem_singleton] at he
        subst he
        refine ⟨rfl, fun hreplaced ↦ ?_⟩
        -- the call stands at the wake, so the state is `COMPLETED`, and stays so
        have hmove := move_of_step htask
        obtain ⟨hwakes, hwoken⟩ := (afterReplacing_of_move hmove
          ((Bool.or_eq_true_iff.mp hreplaced).imp_left (htracks.replaced _))).2 hends
        refine ⟨hmove.ends.1 (state_of_wakes htracks.reachable hwakes), ?_⟩
        rw [hwoken]
        exact Exit.woke_wake _ _ _
    | goOn => exact hc.exits
  · exact hc.exits

theorem Contained.step {c d : State V P W} {a : Agent × Label V P W}
    (hr : (machine V P W).Reachable c) (hc : Contained c) (hquiet : Quiet c a)
    (hs : (machine V P W).step c a = some d) : Contained d := by
  have hexits := hc.exits_step hr hquiet hs
  have htracks := tracks_of_reachable (.step hr trivial hs) fun e he ↦ (hexits e he).1
  exact ⟨htracks.workers, hexits⟩

theorem quiet_of_contained {c : State V P W} {a : Agent × Label V P W}
    (h : ∀ d, (machine V P W).step c a = some d → Contained d) : Quiet c a := by
  obtain ⟨i, a⟩ := a
  cases i with
  | worker w =>
    intro hfreed hunwound r hstep hdrops
    obtain ⟨m', ℓ', hend⟩ : ∃ m' ℓ', workerEnd c.shared (c.pc (.worker w)) a r.1 r.2 = (m', ℓ') :=
      ⟨_, _, rfl⟩
    have hs : step (.worker w) c.shared (c.pc (.worker w)) a = some (m', ℓ') := by
      have htask : Task.step (.worker w) c.shared.task (c.pc (.worker w)).pc a.action = some r :=
        hstep
      simp [Unwind.step, hfreed, hunwound, htask, hend]
    have heffect := effect_workerEnd c.shared (c.pc (.worker w)) a r.1 r.2
    rw [hend] at heffect
    have hcontained := h _ (System.machine_step_eq_some.mpr ⟨m', ℓ', hs, rfl⟩)
    -- a destructor that panics would unwind the call, and the exit would be in the history
    cases hpanics : a.dropPanics with
    | false => rfl
    | true =>
      cases heffect with
      | @unwind _ _ e _ _ hexits he =>
        have hmem : e ∈ m'.exits := by
          rw [hexits]
          exact List.mem_append_right _ List.mem_cons_self
        rw [(hcontained.exits e hmem).1] at he
        cases he
      | ret _ hquiet => simp [hquiet hpanics] at hdrops
      | goOn _ _ _ hquiet => simp [hquiet hpanics] at hdrops
  | _ => trivial

/-- **Panics are contained** in exactly those runs in which every destructor of the future that
`run` calls returns. -/
theorem contained_iff (as : List (Agent × Label V P W)) :
    (machine V P W).Along (fun c a ↦ ∀ d, (machine V P W).step c a = some d → Contained d)
        State.new as ↔
      (machine V P W).Along Quiet State.new as := by
  refine Machine.along_iff (I := fun c ↦ (machine V P W).Reachable c ∧ Contained c)
    ⟨.init rfl, fun _ ↦ rfl, by simp [State.new]⟩ (fun c a d hc hquiet hs ↦ ?_) (fun _ hc ↦ hc.2)
    (fun _ _ _ h ↦ quiet_of_contained h) as
  exact ⟨.step hc.1 trivial hs, hc.2.step hc.1 hquiet hs⟩

/-- The joiner waits with its waker 9; worker 0 polls the future to the end, and the destructor of
the future panics. -/
def panickingDestructor : List (Agent × Label ℕ Unit ℕ) :=
  ([(.waker 0, .enqueueGlobal), (.joiner, .join 9), (.joiner, .step), (.joiner, .step),
    (.joiner, .step), (.joiner, .step), (.joiner, .step), (.joiner, .step), (.joiner, .step),
    (.worker 0, .refill), (.worker 0, .dequeue), (.worker 0, .step), (.worker 0, .step),
    (.worker 0, .step)].map fun a ↦ (a.1, ⟨a.2, false, false⟩)) ++
    [(.worker 0, ⟨.outcome (.ready 5), true, false⟩)]

def afterPanic : State ℕ Unit ℕ :=
  ((machine ℕ Unit ℕ).exec .new panickingDestructor).get (by decide)

/-- The worker is unwound, and the joiner waits for a task that stays `RUNNING`. -/
theorem not_contained_afterPanic :
    ¬∀ c : State ℕ Unit ℕ, (machine ℕ Unit ℕ).Reachable c → Contained c := by
  intro h
  have hexec : (machine ℕ Unit ℕ).exec .new panickingDestructor = some afterPanic :=
    (Option.some_get _).symm
  have hcontained := h afterPanic (.of_exec (.init rfl) hexec)
  have hexit : (⟨true, .running, some 9, some 9, [], true⟩ : Exit ℕ) ∈ afterPanic.shared.exits := by
    decide
  exact Bool.false_ne_true (hcontained.exits _ hexit).1.symm

end Unwind

end ArcDischarge.Task
