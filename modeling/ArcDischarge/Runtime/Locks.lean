import ArcDischarge.Machine.Lock
import ArcDischarge.Runtime.Moves

/-!
# Who holds what

The basic invariant of the runtime, thread by thread: each lock is held exactly at the program
counters between its acquisition and its release, a worker waits on its Condvar exactly when its
counter says so, and a parker is set only around the wait. It holds in every interleaving, spurious
returns included, and says nothing yet about the queue of parked workers.
-/

namespace ArcDischarge.Runtime

/-- The part of `schedule_global` under the lock of `parked_workers`. -/
def Call.holdsParked : Call → Prop
  | .push _ | .tryLock => False
  | _ => True

/-- The part of `schedule_global` under the lock of worker `i`'s parker. -/
def Call.holdsParker (i : ℕ) : Call → Prop
  | .inspect j | .notify j | .release j _ => j = i
  | _ => False

/-- The worker that a `schedule_global` call is dealing with. -/
def Call.target : Call → Option ℕ
  | .lockParker i | .inspect i | .notify i | .release i _ => some i
  | _ => none

/-- The part of the worker loop under the lock of the worker's own parker. -/
def Base.holdsParker : Base → Prop
  | .checkParker | .pushing | .park | .wait | .unpark | .release => True
  | _ => False

/-- The part of the worker loop under the lock of the driver. -/
def Base.holdsIo : Base → Prop
  | .polling | .events | .unlockIo => True
  | _ => False

/-- Where the worker's parker may be set. -/
def Base.mayBeParked : Base → Prop
  | .wait | .waiting | .relock | .unpark => True
  | _ => False

/-- Where a thread may be inside a `schedule_global` call. -/
def Base.mayCall : Base → Prop
  | .outside | .running _ | .events => True
  | _ => False

/-- The thread holds the lock of worker `i`'s parker, as a scheduler or as that worker. -/
def Local.holdsParker (ℓ : Local) (θ : Thread) (i : ℕ) : Prop :=
  (∃ c, ℓ.call = some c ∧ c.holdsParker i) ∨ (θ = .worker i ∧ ℓ.base.holdsParker)

/-- What holds of one thread. -/
structure Ok (n : ℕ) (θ : Thread) (m : Shared) (ℓ : Local) : Prop where
  parked : m.parkedLock = some θ ↔ ∃ c, ℓ.call = some c ∧ c.holdsParked
  parker : ∀ i, m.parkerLock i = some θ ↔ ℓ.holdsParker θ i
  io : m.ioDriver = some θ ↔ ℓ.base.holdsIo
  cond : ∀ i, θ = .worker i → (m.unparker i = .idle ↔ ℓ.base ≠ .waiting)
  flag : ∀ i, θ = .worker i → m.parker i = some .parked → ℓ.base.mayBeParked
  call : ∀ c, ℓ.call = some c → ℓ.base.mayCall ∧ ∀ i, c.target = some i → i < n
  worker : ℓ.base ≠ .outside ↔ ∃ i < n, θ = .worker i

/-! ## The steps -/

variable {n i : ℕ} {θ θ' : Thread} {m m' : Shared} {ℓ ℓ' : Local} {a : Label}

theorem top_base (ℓ : Local) : (top ℓ).base = .getGlobal ∨ ∃ t, (top ℓ).base = .running t := by
  simp only [top]
  split_ifs
  · cases ℓ.localQueue <;> simp
  · simp

@[simp] theorem top_call (ℓ : Local) : (top ℓ).call = ℓ.call := by
  simp only [top]
  split_ifs
  · cases ℓ.localQueue <;> rfl
  · rfl

theorem getGlobal_base (m : Shared) (ℓ : Local) :
    (getGlobal m ℓ).2.base = .tryLockIo ∨ ∃ t, (getGlobal m ℓ).2.base = .running t := by
  unfold getGlobal
  cases ℓ.localQueue ++ m.globalQueue.take 4 <;> simp

@[simp] theorem getGlobal_call (m : Shared) (ℓ : Local) : (getGlobal m ℓ).2.call = ℓ.call := by
  unfold getGlobal
  cases ℓ.localQueue ++ m.globalQueue.take 4 <;> rfl

@[simp] theorem scheduleLocal_base (m : Shared) (ℓ : Local) (t : ℕ) :
    (scheduleLocal m ℓ t).base = ℓ.base := by
  unfold scheduleLocal
  split_ifs <;> rfl

theorem scheduleLocal_call (m : Shared) (ℓ : Local) (t : ℕ) :
    (scheduleLocal m ℓ t).call = ℓ.call ∨ (scheduleLocal m ℓ t).call = some (.push t) := by
  unfold scheduleLocal
  split_ifs <;> simp

theorem afterPop_target (n : ℕ) (q : SyncSlotMap.State) :
    (afterPop n q).holdsParked ∧ (∀ i, ¬(afterPop n q).holdsParker i) ∧
      ∀ i, (afterPop n q).target = some i → i < n := by
  unfold afterPop
  split
  · simp [Call.holdsParked, Call.holdsParker, Call.target]
  · split_ifs with hi
    · simpa [Call.holdsParked, Call.holdsParker, Call.target] using hi
    · simp [Call.holdsParked, Call.holdsParker, Call.target]
  · simp [Call.holdsParked, Call.holdsParker, Call.target]

@[simp] theorem notifyOne_eq_idle {c : Condvar} : c.notifyOne = .idle ↔ c = .idle := by
  cases c <;> simp [Condvar.notifyOne]

/-- A thread inside a call is not in the parking branch. -/
theorem Ok.not_holdsParker (h : Ok n θ m ℓ) {c : Call} (hc : ℓ.call = some c) :
    ¬ℓ.base.holdsParker := by
  have hbase := (h.call c hc).1
  cases hb : ℓ.base <;> simp_all [Base.mayCall, Base.holdsParker]

/-- Elsewhere the parker is unset. -/
theorem Ok.parker_eq_none (h : Ok n (.worker i) m ℓ) (hb : ¬ℓ.base.mayBeParked) :
    m.parker i = none := by
  cases hp : m.parker i with
  | none => rfl
  | some w => cases w; exact absurd (h.flag i rfl hp) hb

theorem CallMove.n_eq {c : Call} {c' : Option Call} (h : CallMove θ m c m' c') : m'.n = m.n := by
  cases h <;> rfl

theorem WorkerMove.n_eq {b : Base} (h : WorkerMove i m ℓ b a m' ℓ') : m'.n = m.n := by
  cases h <;> rfl

/-! ### Calls -/

section

variable {c : Call} {c' : Option Call}

theorem CallMove.parkedLock_step (h : CallMove θ m c m' c') : LockStep θ m.parkedLock m'.parkedLock
    c.holdsParked (∃ d, c' = some d ∧ d.holdsParked) := by
  cases h with
  | lock h => exact .acquire h rfl ⟨_, rfl, trivial⟩
  | unlock => exact .release trivial rfl (by simp)
  | push | skip => exact .keep rfl (by simp [Call.holdsParked])
  | pop => exact .keep rfl (iff_of_true ⟨_, rfl, (afterPop_target _ _).1⟩ trivial)
  | @release _ again => cases again <;> exact .keep rfl (iff_of_true ⟨_, rfl, trivial⟩ trivial)
  | callPop | lockParker | inspectParked | inspectNone | notify | wakeIo =>
    exact .keep rfl (iff_of_true ⟨_, rfl, trivial⟩ trivial)

theorem CallMove.parkerLock_step (h : CallMove θ m c m' c') (j : ℕ) :
    LockStep θ (m.parkerLock j) (m'.parkerLock j) (c.holdsParker j)
      (∃ d, c' = some d ∧ d.holdsParker j) := by
  cases h with
  | lockParker h =>
    refine .update (fun hj ↦ .acquire h rfl ⟨_, rfl, hj.symm⟩) fun hj ↦ ?_
    simp [Call.holdsParker, Ne.symm hj]
  | @release _ again =>
    have hnot : ¬∃ d, some (if again then Call.callPop else .unlock) = some d ∧
        d.holdsParker j := by
      cases again <;> simp [Call.holdsParker]
    exact .update (fun hj ↦ .release hj.symm rfl hnot) fun hj ↦ iff_of_false hnot (Ne.symm hj)
  | pop =>
    refine .keep rfl (iff_of_false ?_ not_false)
    rintro ⟨d, hd, hheld⟩
    cases hd
    exact (afterPop_target _ _).2.1 j hheld
  | _ => exact .keep rfl (by simp [Call.holdsParker])

theorem CallMove.ioDriver_eq (h : CallMove θ m c m' c') : m'.ioDriver = m.ioDriver := by
  cases h <;> rfl

/-- A notification ends no wait by itself. -/
theorem CallMove.unparker_idle (h : CallMove θ m c m' c') (j : ℕ) :
    m'.unparker j = .idle ↔ m.unparker j = .idle := by
  cases h with
  | @notify i =>
    by_cases hj : j = i
    · subst hj
      simp
    · simp [hj]
  | _ => exact Iff.rfl

/-- A call unsets parkers and sets none. -/
theorem CallMove.parker_of_parked (h : CallMove θ m c m' c') (j : ℕ)
    (hj : m'.parker j = some .parked) : m.parker j = some .parked := by
  cases h with
  | @inspectParked i hp =>
    by_cases hji : j = i
    · rwa [hji]
    · exact (Function.update_of_ne hji none m.parker).symm.trans hj
  | _ => exact hj

/-- The worker that a call deals with is one that it has popped. -/
theorem CallMove.target_lt (h : CallMove θ m c m' c') (hc : ∀ i, c.target = some i → i < m.n)
    {d : Call} (hd : c' = some d) (i : ℕ) (hi : d.target = some i) : i < m.n := by
  cases h with
  | pop =>
    cases hd
    exact (afterPop_target _ _).2.2 i hi
  | @release _ again =>
    cases again <;> cases hd <;> cases hi
  | push | lock | callPop | wakeIo =>
    cases hd
    cases hi
  | lockParker | inspectParked | inspectNone | notify =>
    cases hd
    exact hc i hi
  | skip | unlock => cases hd

theorem Ok.call_own (hn : m.n = n) (h : Ok n θ m ℓ) (hc : ℓ.call = some c)
    (hmove : CallMove θ m c m' c') : Ok n θ m' { ℓ with call := c' } := by
  have hnot := h.not_holdsParker hc
  obtain ⟨hmay, htarget⟩ := h.call c hc
  refine ⟨?_, fun i ↦ ?_, ?_, fun i hi ↦ ?_, fun i hi hp ↦ ?_, fun d hd ↦ ⟨hmay, fun i hi ↦ ?_⟩,
    h.worker⟩
  · refine (hmove.parkedLock_step.own ?_).symm
    rw [h.parked]
    simp [hc]
  · have hown := hmove.parkerLock_step i |>.own (i := θ) (by
      rw [h.parker i, Local.holdsParker]
      simp [hc, hnot])
    rw [← hown, Local.holdsParker]
    simp [hnot]
  · rw [hmove.ioDriver_eq]
    exact h.io
  · rw [hmove.unparker_idle]
    exact h.cond i hi
  · exact h.flag i hi (hmove.parker_of_parked i hp)
  · rw [← hn]
    exact hmove.target_lt (fun i hi ↦ hn ▸ htarget i hi) hd i hi

theorem Ok.call_other {ℓ₀ : Local} (h : Ok n θ m ℓ) (hc : ℓ.call = some c)
    (hmove : CallMove θ m c m' c') (hne : θ' ≠ θ) (h' : Ok n θ' m ℓ₀) : Ok n θ' m' ℓ₀ := by
  have hnot := h.not_holdsParker hc
  refine ⟨?_, fun i ↦ ?_, ?_, fun i hi ↦ ?_, fun i hi hp ↦ ?_, h'.call, h'.worker⟩
  · rw [hmove.parkedLock_step.other ?_ hne]
    · exact h'.parked
    · rw [h.parked]
      simp [hc]
  · rw [(hmove.parkerLock_step i).other ?_ hne]
    · exact h'.parker i
    · rw [h.parker i, Local.holdsParker]
      simp [hc, hnot]
  · rw [hmove.ioDriver_eq]
    exact h'.io
  · rw [hmove.unparker_idle]
    exact h'.cond i hi
  · exact h'.flag i hi (hmove.parker_of_parked i hp)

/-- A thread that is not a worker enters `schedule_global`. -/
theorem Ok.enter {k t : ℕ} (h : Ok n (.other k) m ℓ) (hc : ℓ.call = none) :
    Ok n (.other k) m { ℓ with call := some (.push t) } := by
  have hbase : ℓ.base = .outside := by
    by_contra hbase
    obtain ⟨i, -, hi⟩ := h.worker.mp hbase
    cases hi
  refine ⟨?_, fun i ↦ ?_, h.io, h.cond, h.flag, fun d hd ↦ ?_, h.worker⟩
  · rw [h.parked]
    simp [hc, Call.holdsParked]
  · rw [h.parker i, Local.holdsParker, Local.holdsParker]
    simp [hc, Call.holdsParker]
  · cases hd
    refine ⟨?_, fun i hi ↦ by cases hi⟩
    rw [hbase]
    trivial

end

/-! ### The worker loop -/

/-- A thread in the worker loop is one of the workers. -/
theorem Ok.lt_of_workerMove {ℓ₀ : Local} (h : Ok n (.worker i) m ℓ)
    (hmove : WorkerMove i m ℓ₀ ℓ.base a m' ℓ') : i < n := by
  obtain ⟨j, hj, hij⟩ := h.worker.1 hmove.base_ne
  exact Thread.worker.inj hij ▸ hj

theorem of_top {P : Base → Prop} (hget : P .getGlobal) (hrun : ∀ t, P (.running t)) :
    P (top ℓ).base := by
  rcases top_base ℓ with h | ⟨t, h⟩
  · rwa [h]
  · rw [h]
    exact hrun t

theorem of_getGlobal {P : Base → Prop} (hio : P .tryLockIo) (hrun : ∀ t, P (.running t)) :
    P (getGlobal m ℓ).2.base := by
  rcases getGlobal_base m ℓ with h | ⟨t, h⟩
  · rwa [h]
  · rw [h]
    exact hrun t

section

variable {b : Base}

theorem WorkerMove.parkedLock_eq (h : WorkerMove i m ℓ b a m' ℓ') :
    m'.parkedLock = m.parkedLock := by
  cases h <;> rfl

/-- The worker loop enters `schedule_global` at its beginning. -/
theorem WorkerMove.call_eq (h : WorkerMove i m ℓ b a m' ℓ') (hb : ℓ.base = b)
    (hc : ℓ.call = none) :
    ℓ'.call = none ∨ (∃ t, ℓ'.call = some (.push t)) ∧ ℓ'.base.mayCall := by
  cases h with
  | top => exact Or.inl (by rw [top_call, hc])
  | getGlobal => exact Or.inl (by rw [getGlobal_call, hc])
  | @runningLocal t t' | @eventsLocal t' =>
    rcases scheduleLocal_call m ℓ t' with h | h
    · exact Or.inl (h.trans hc)
    · exact Or.inr ⟨⟨t', h⟩, by rw [scheduleLocal_base, hb]; trivial⟩
  | runningGlobal | eventsGlobal => exact Or.inr ⟨⟨_, rfl⟩, by rw [hb]; trivial⟩
  | _ => exact Or.inl hc

theorem WorkerMove.ioDriver_step (h : WorkerMove i m ℓ b a m' ℓ') (hb : ℓ.base = b) :
    LockStep (.worker i) m.ioDriver m'.ioDriver b.holdsIo ℓ'.base.holdsIo := by
  cases h with
  | lockIo h => exact .acquire h rfl trivial
  | unlockIo => exact .release trivial rfl not_false
  | top => exact .keep rfl (of_top (P := fun b ↦ b.holdsIo ↔ _) Iff.rfl fun _ ↦ Iff.rfl)
  | getGlobal =>
    exact .keep rfl (of_getGlobal (P := fun b ↦ b.holdsIo ↔ _) Iff.rfl fun _ ↦ Iff.rfl)
  | runningLocal | eventsLocal => exact .keep rfl (by rw [scheduleLocal_base, hb])
  | runningGlobal | eventsGlobal => exact .keep rfl (by rw [hb])
  | pushStep =>
    refine .keep rfl ?_
    dsimp only
    split <;> rfl
  | _ => exact .keep rfl Iff.rfl

theorem WorkerMove.parkerLock_step (h : WorkerMove i m ℓ b a m' ℓ') (hb : ℓ.base = b) (j : ℕ) :
    LockStep (.worker i) (m.parkerLock j) (m'.parkerLock j) (j = i ∧ b.holdsParker)
      (j = i ∧ ℓ'.base.holdsParker) := by
  cases h with
  | lockParker h | relock h =>
    exact .update (fun hj ↦ .acquire h rfl ⟨hj, trivial⟩) fun hj ↦ by simp [hj]
  | wait | release =>
    exact .update (fun hj ↦ .release ⟨hj, trivial⟩ rfl fun h ↦ h.2) fun hj ↦ by simp [hj]
  | top =>
    refine .keep rfl (and_congr_right fun _ ↦ ?_)
    exact of_top (P := fun b ↦ b.holdsParker ↔ _) Iff.rfl fun _ ↦ Iff.rfl
  | getGlobal =>
    refine .keep rfl (and_congr_right fun _ ↦ ?_)
    exact of_getGlobal (P := fun b ↦ b.holdsParker ↔ _) Iff.rfl fun _ ↦ Iff.rfl
  | runningLocal | eventsLocal => exact .keep rfl (by rw [scheduleLocal_base, hb])
  | runningGlobal | eventsGlobal => exact .keep rfl (by rw [hb])
  | pushStep =>
    refine .keep rfl (and_congr_right fun _ ↦ ?_)
    dsimp only
    split <;> rfl
  | _ => exact .keep rfl Iff.rfl

/-- The Condvar of the worker itself, and those of the others. -/
theorem WorkerMove.unparker_idle (h : WorkerMove i m ℓ b a m' ℓ') (hb : ℓ.base = b)
    (hcond : m.unparker i = .idle ↔ b ≠ .waiting) :
    m'.unparker i = .idle ↔ ℓ'.base ≠ .waiting := by
  cases h with
  | wait | notified | spurious => simp
  | top => exact hcond.trans (of_top (P := fun b ↦ _ ↔ b ≠ .waiting) (by simp) (by simp))
  | getGlobal =>
    exact hcond.trans (of_getGlobal (P := fun b ↦ _ ↔ b ≠ .waiting) (by simp) (by simp))
  | runningLocal | eventsLocal =>
    rw [scheduleLocal_base, hb]
    exact hcond
  | runningGlobal | eventsGlobal =>
    rw [hb]
    exact hcond
  | pushStep =>
    refine hcond.trans ?_
    dsimp only
    split <;> simp
  | _ => exact hcond.trans (by simp)

theorem WorkerMove.unparker_of_ne (h : WorkerMove i m ℓ b a m' ℓ') {j : ℕ} (hj : j ≠ i) :
    m'.unparker j = m.unparker j := by
  cases h with
  | wait | notified | spurious => exact Function.update_of_ne hj _ _
  | _ => rfl

/-- The worker's own parker is set from `park` to `unpark`. -/
theorem WorkerMove.mayBeParked (h : WorkerMove i m ℓ b a m' ℓ')
    (hflag : m.parker i = some .parked → b.mayBeParked) (hp : m'.parker i = some .parked) :
    ℓ'.base.mayBeParked := by
  cases h with
  | park | wait | notified | spurious | relock => trivial
  | unpark => simp at hp
  | _ => exact (hflag hp).elim

theorem WorkerMove.parker_of_ne (h : WorkerMove i m ℓ b a m' ℓ') {j : ℕ} (hj : j ≠ i) :
    m'.parker j = m.parker j := by
  cases h with
  | park | unpark => exact Function.update_of_ne hj _ _
  | _ => rfl

theorem WorkerMove.base_ne_outside (h : WorkerMove i m ℓ b a m' ℓ') (hb : ℓ.base = b) :
    ℓ'.base ≠ .outside := by
  cases h with
  | top => exact of_top (P := (· ≠ .outside)) (by simp) (by simp)
  | getGlobal => exact of_getGlobal (P := (· ≠ .outside)) (by simp) (by simp)
  | runningLocal | eventsLocal => simp [hb]
  | runningGlobal | eventsGlobal => simp [hb]
  | pushStep =>
    dsimp only
    split <;> simp
  | _ => simp

theorem Ok.worker_own (h : Ok n (.worker i) m ℓ) (hc : ℓ.call = none)
    (hmove : WorkerMove i m ℓ ℓ.base a m' ℓ') : Ok n (.worker i) m' ℓ' := by
  have hcall := hmove.call_eq rfl hc
  refine ⟨?_, fun j ↦ ?_, (hmove.ioDriver_step rfl |>.own h.io.symm).symm, fun j hj ↦ ?_,
    fun j hj ↦ ?_, fun d hd ↦ ?_, iff_of_true (hmove.base_ne_outside rfl) ?_⟩
  · rw [hmove.parkedLock_eq, h.parked]
    rcases hcall with hcall | ⟨⟨t, hcall⟩, -⟩ <;> simp [hc, hcall, Call.holdsParked]
  · have hown := (hmove.parkerLock_step rfl j).own (by
      rw [h.parker j, Local.holdsParker]
      simp [hc, eq_comm])
    rw [← hown, Local.holdsParker]
    rcases hcall with hcall | ⟨⟨t, hcall⟩, -⟩ <;> simp [hcall, Call.holdsParker, eq_comm]
  · cases hj
    exact hmove.unparker_idle rfl (h.cond i rfl)
  · cases hj
    exact hmove.mayBeParked (h.flag i rfl)
  · rcases hcall with hcall | ⟨⟨t, hcall⟩, hmay⟩
    · rw [hcall] at hd
      cases hd
    · rw [hcall] at hd
      cases hd
      exact ⟨hmay, fun j hj ↦ by cases hj⟩
  · exact ⟨i, h.lt_of_workerMove hmove, rfl⟩

theorem Ok.worker_other {ℓ₀ : Local} (h : Ok n (.worker i) m ℓ) (hc : ℓ.call = none)
    (hmove : WorkerMove i m ℓ ℓ.base a m' ℓ') (hne : θ' ≠ .worker i) (h' : Ok n θ' m ℓ₀) :
    Ok n θ' m' ℓ₀ := by
  have hworker (j : ℕ) (hj : θ' = .worker j) : j ≠ i := fun hji ↦ hne (hji ▸ hj)
  refine ⟨?_, fun j ↦ ?_, ?_, fun j hj ↦ ?_, fun j hj ↦ ?_, h'.call, h'.worker⟩
  · rw [hmove.parkedLock_eq]
    exact h'.parked
  · rw [(hmove.parkerLock_step rfl j).other ?_ hne]
    · exact h'.parker j
    · rw [h.parker j, Local.holdsParker]
      simp [hc, eq_comm]
  · rw [(hmove.ioDriver_step rfl).other h.io.symm hne]
    exact h'.io
  · rw [hmove.unparker_of_ne (hworker j hj)]
    exact h'.cond j hj
  · rw [hmove.parker_of_ne (hworker j hj)]
    exact h'.flag j hj

end

/-! ## Every run -/

/-- A thread that is outside everything, with nothing locked, parked or called. -/
theorem Ok.of_quiet (hparked : m.parkedLock = none) (hparker : ∀ i, m.parkerLock i = none)
    (hio : m.ioDriver = none) (hcond : ∀ i, m.unparker i = .idle) (hflag : ∀ i, m.parker i = none)
    (hcall : ℓ.call = none) (hbase : ℓ.base = .outside ∨ ℓ.base = .top)
    (hworker : ℓ.base ≠ .outside ↔ ∃ i < n, θ = .worker i) : Ok n θ m ℓ where
  parked := by simp [hparked, hcall]
  parker i := by
    rw [hparker i, Local.holdsParker, hcall]
    rcases hbase with h | h <;> simp [h, Base.holdsParker]
  io := by
    rw [hio]
    rcases hbase with h | h <;> simp [h, Base.holdsIo]
  cond i _ := by
    rw [hcond i]
    rcases hbase with h | h <;> simp [h]
  flag i _ hp := by
    rw [hflag i] at hp
    cases hp
  call c hc := by
    rw [hcall] at hc
    cases hc
  worker := hworker

theorem ok_new (n capacity : ℕ) (θ : Thread) : Ok n θ (.new n capacity) (.new n θ) := by
  cases θ with
  | worker i =>
    by_cases hi : i < n
    · refine .of_quiet rfl (fun _ ↦ rfl) rfl (fun _ ↦ rfl) (fun _ ↦ rfl) ?_ (Or.inr ?_) ?_ <;>
        simp [Local.new, hi]
    · refine .of_quiet rfl (fun _ ↦ rfl) rfl (fun _ ↦ rfl) (fun _ ↦ rfl) ?_ (Or.inl ?_) ?_ <;>
        simp [Local.new, hi]
  | other k =>
    refine .of_quiet rfl (fun _ ↦ rfl) rfl (fun _ ↦ rfl) (fun _ ↦ rfl) rfl (Or.inl rfl) ?_
    simp [Local.new]

/-- In every interleaving, the locks are held where the program counters say. -/
theorem ok_of_reachableUnder {G : State → Thread × Label → Prop} {capacity : ℕ} {c : State}
    (h : (machine n capacity).ReachableUnder G c) :
    System.Holds (fun m ↦ m.n = n) (Ok n) c := by
  refine System.holds_of_reachableUnder h ?_ ?_ ?_
  · rintro _ rfl
    exact ⟨rfl, ok_new n capacity⟩
  · rintro c θ a m ℓ - ⟨hn, hok⟩ - hstep
    have hθ := hok θ
    cases move_of_step hstep with
    | call hc hmove => exact ⟨hmove.n_eq.trans hn, hθ.call_own hn hc hmove⟩
    | enter hc => exact ⟨hn, hθ.enter hc⟩
    | worker hc hmove => exact ⟨hmove.n_eq.trans hn, hθ.worker_own hc hmove⟩
  · rintro c θ a m ℓ - ⟨hn, hok⟩ - hstep θ' hne
    have hθ := hok θ
    cases move_of_step hstep with
    | call hc hmove => exact hθ.call_other hc hmove hne (hok θ')
    | enter hc => exact hok θ'
    | worker hc hmove => exact hθ.worker_other hc hmove hne (hok θ')

/-! ## Mutual exclusion -/

variable {c : State}

/-- A step of a call leaves every worker loop where it is. -/
theorem base_update_call (c : State) (θ θ' : Thread) (k : Option Call) :
    (Function.update c.pc θ { c.pc θ with call := k } θ').base = (c.pc θ').base := by
  by_cases hθ : θ' = θ
  · rw [hθ, Function.update_self]
  · rw [Function.update_of_ne hθ]

/-- A scheduler that has locked a worker's parker keeps the worker out of its critical sections. -/
theorem not_holdsParker_of_call {k : Call} (hok : ∀ θ, Ok n θ c.shared (c.pc θ))
    (hcall : (c.pc θ).call = some k) (hk : k.holdsParker i) :
    ¬(c.pc (.worker i)).base.holdsParker := by
  intro hheld
  have hlock : c.shared.parkerLock i = some θ := ((hok θ).parker i).2 (.inl ⟨_, hcall, hk⟩)
  have hlock' := ((hok (.worker i)).parker i).2 (.inr ⟨rfl, hheld⟩)
  obtain rfl : θ = .worker i := by simpa [hlock] using hlock'
  exact (hok _).not_holdsParker hcall hheld

/-- A scheduler that finds the parker set, under its lock, has caught the worker in its wait. -/
theorem waiter_of_inspect (hok : ∀ θ, Ok n θ c.shared (c.pc θ))
    (hcall : (c.pc θ).call = some (.inspect i)) (hp : c.shared.parker i = some .parked) :
    (c.pc (.worker i)).base = .waiting ∨ (c.pc (.worker i)).base = .relock := by
  have hmay := (hok (.worker i)).flag i rfl hp
  have hnot := not_holdsParker_of_call (i := i) hok hcall rfl
  cases hb : (c.pc (.worker i)).base <;> simp_all [Base.mayBeParked, Base.holdsParker]

end ArcDischarge.Runtime
