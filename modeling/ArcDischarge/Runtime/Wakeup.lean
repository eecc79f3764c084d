import ArcDischarge.Runtime.Locks
import ArcDischarge.SyncSlotMap.InRange

/-!
# No task is stranded in the global queue

A task in the global queue is looked after as long as somebody is still going to act on the queue: a
`schedule_global` call that has not issued its wake-up, an undelivered mio wake, or a worker that
will look at the queue before it sleeps. Every step hands this duty on, except one: a
`schedule_global` whose `try_lock` finds `parked_workers` locked trusts the holder's wake-up, which
may be spent already.

So the claim of the comment in `schedule_global` ("if it's already locked, then we know another
worker is already being woken up") is taken as a condition on the failing `try_lock`s of a run.
Under it no task is stranded; without it one is, in a runtime with a single worker.
-/

namespace ArcDischarge.Runtime

/-- The call has pushed its task and has not issued its wake-up. -/
def Call.beforeWake : Call → Prop
  | .push _ | .release _ false | .unlock | .panicked => False
  | .tryLock | .callPop | .pop | .lockParker _ | .inspect _ | .notify _ | .release _ true
  | .wakeIo => True

/-- The worker looks at the global queue before it next sleeps. -/
def Base.willLook : Base → Prop
  | .top | .getGlobal | .running _ | .events | .unlockIo | .relock | .unpark | .release => True
  | _ => False

/-- Worker `i` is awake, or notified, and will look at the global queue. -/
def WillLook (c : State) (i : ℕ) : Prop :=
  (c.pc (.worker i)).base.willLook ∨
    ((c.pc (.worker i)).base = .waiting ∧ c.shared.unparker i = .notified)

/-- Worker `i` is blocked in the mio poll, or waits on its Condvar without being notified. -/
def Asleep (c : State) (i : ℕ) : Prop :=
  (c.pc (.worker i)).base = .polling ∨
    ((c.pc (.worker i)).base = .waiting ∧ c.shared.unparker i ≠ .notified)

/-- With no call in progress and no wake pending, a non-empty global queue has a worker awake. -/
def NotStranded (n : ℕ) (c : State) : Prop :=
  (∀ θ, (c.pc θ).call = none) → c.shared.wakePending = false → c.shared.globalQueue ≠ [] →
    ∃ i < n, ¬Asleep c i

/-- Somebody other than `θ` is going to act on the global queue, if there is anything in it. -/
def CarriedBut (n : ℕ) (θ : Thread) (c : State) : Prop :=
  c.shared.globalQueue = [] ∨ (∃ θ' ≠ θ, ∃ k, (c.pc θ').call = some k ∧ k.beforeWake) ∨
    c.shared.wakePending = true ∨ ∃ i < n, WillLook c i

/-- Where a `try_lock` of `parked_workers` fails, the wake-up it relies on is still in force. -/
def WakeInForce (n : ℕ) (c : State) (a : Thread × Label) : Prop :=
  (c.pc a.1).call = some .tryLock → c.shared.parkedLock ≠ none → CarriedBut n a.1 c

/-- Somebody is going to act on the global queue, if there is anything in it. -/
def Carried (n : ℕ) (c : State) : Prop :=
  c.shared.globalQueue = [] ∨ (∃ θ k, (c.pc θ).call = some k ∧ k.beforeWake) ∨
    c.shared.wakePending = true ∨ ∃ i < n, WillLook c i

variable {n i : ℕ} {θ : Thread} {m m' : Shared} {ℓ ℓ' : Local} {a : Label} {c : State}

/-! ## The worker about to be notified -/

/-- While a scheduler is about to notify worker `i`, the worker waits, or tries to lock. -/
def NotifiesWaiter (c : State) : Prop :=
  ∀ θ i, (c.pc θ).call = some (.notify i) →
    (c.pc (.worker i)).base = .waiting ∨ (c.pc (.worker i)).base = .relock

/-- Worker `i`'s own steps, as the global queue sees them. -/
theorem WorkerMove.frame {b : Base} (hmove : WorkerMove i m ℓ b a m' ℓ') :
    (m.globalQueue = [] → m'.globalQueue = []) ∧
      (m'.wakePending = m.wakePending ∨ ℓ'.base = .events) ∧
      (b = .waiting → ℓ'.base = .relock) ∧ ∀ j ≠ i, m'.unparker j = m.unparker j := by
  cases hmove <;> simp_all

/-- A call comes to notify a worker by finding its parker set. -/
theorem CallMove.inspect_of_notify {k : Call} {k' : Option Call} (h : CallMove θ m k m' k')
    (hk' : k' = some (.notify i)) : k = .inspect i ∧ m.parker i = some .parked := by
  cases h with
  | inspectParked hp =>
    cases hk'
    exact ⟨rfl, hp⟩
  | @pop q =>
    have hnot := (afterPop_target m.n q).2.1 i
    rw [Option.some.inj hk'] at hnot
    exact absurd rfl hnot
  | @release _ again => cases again <;> cases hk'
  | _ => cases hk'

theorem WorkerMove.parkerLock_of_relock (h : WorkerMove i m ℓ .relock a m' ℓ') :
    m.parkerLock i = none := by
  cases h
  assumption

theorem notifiesWaiter_of_reachableUnder {G : State → Thread × Label → Prop} {capacity : ℕ}
    (h : (machine n capacity).ReachableUnder G c) : NotifiesWaiter c := by
  refine System.invariant h ?_ fun c θ a m ℓ hc hN _ hs ↦ ?_
  · rintro _ rfl (i | k) j <;> simp [State.new, Local.new]
  have hok := (ok_of_reachableUnder hc).2
  intro θ' i hcall
  dsimp only at hcall ⊢
  cases move_of_step hs with
  | call hk hmove =>
    rw [base_update_call]
    by_cases hθ : θ' = θ
    · subst hθ
      rw [Function.update_self] at hcall
      obtain ⟨rfl, hp⟩ := hmove.inspect_of_notify hcall
      exact waiter_of_inspect hok hk hp
    · rw [Function.update_of_ne hθ] at hcall
      exact hN θ' i hcall
  | @enter k =>
    rw [base_update_call]
    by_cases hθ : θ' = .other k
    · subst hθ
      rw [Function.update_self] at hcall
      cases hcall
    · rw [Function.update_of_ne hθ] at hcall
      exact hN θ' i hcall
  | @worker w _ _ _ _ _ hk hmove =>
    -- the worker that moves is in no call, so it is not the one about to notify
    have hne : θ' ≠ .worker w := by
      rintro rfl
      rw [Function.update_self] at hcall
      rcases hmove.call_eq rfl hk with hnone | ⟨⟨t, hpush⟩, -⟩ <;> simp_all
    rw [Function.update_of_ne hne] at hcall
    have hwait := hN θ' i hcall
    by_cases hi : i = w
    · subst hi
      rw [Function.update_self]
      rcases hwait with hwait | hrelock
      · exact Or.inr (hmove.frame.2.2.1 hwait)
      · -- it cannot get the lock, which the scheduler has
        have hlock := ((hok θ').parker i).2 (Or.inl ⟨_, hcall, rfl⟩)
        rw [hrelock] at hmove
        rw [hmove.parkerLock_of_relock] at hlock
        cases hlock
    · rwa [Function.update_of_ne fun heq ↦ hi (Thread.worker.inj heq)]

/-! ## The worker popped -/

/-- The queue of parked workers stays in range: only workers push themselves. -/
theorem inRange_of_reachableUnder {G : State → Thread × Label → Prop} {capacity : ℕ}
    (h : (machine n capacity).ReachableUnder G c) :
    SyncSlotMap.InRange n c.shared.parkedWorkers := by
  refine System.invariant (I := fun c ↦ SyncSlotMap.InRange n c.shared.parkedWorkers) h ?_
    fun c θ a m ℓ hc hR _ hs ↦ ?_
  · rintro _ rfl
    exact SyncSlotMap.InRange.new n
  have hok := (ok_of_reachableUnder hc).2
  cases move_of_step hs with
  | call hk hmove =>
    cases hmove with
    | callPop hq | pop hq => exact hR.step (by simp) hq
    | _ => exact hR
  | enter hk => exact hR
  | @worker i _ _ _ _ _ hk hmove =>
    have hi : i < n := (hok (.worker i)).lt_of_workerMove hmove
    generalize hb : (c.pc (.worker i)).base = b at hmove
    cases hmove with
    | push hp hq => exact hR.step (by simp [hi]) hq
    | pushStep hq => exact hR.step (by simp) hq
    | _ => exact hR

/-- After a step of `pop()` the call still has its wake-up to issue. -/
theorem beforeWake_afterPop {q : SyncSlotMap.State} (h : SyncSlotMap.InRange n q) :
    (afterPop n q).beforeWake := by
  unfold afterPop
  split
  · trivial
  · rename_i hlast
    rw [if_pos (h.ready_lt _ (List.mem_of_getLast? hlast) _ rfl)]
    trivial
  · simp [Call.beforeWake]

/-! ## The duty is handed on -/

theorem getGlobal_asleep (h : (getGlobal m ℓ).2.base = .tryLockIo) : m.globalQueue = [] := by
  unfold getGlobal at h
  cases hq : ℓ.localQueue ++ m.globalQueue.take 4 with
  | nil => simpa using (List.append_eq_nil_iff.mp hq).2
  | cons t q => simp [hq] at h

theorem CallMove.unparker_notified {k : Call} {k' : Option Call} (h : CallMove θ m k m' k')
    (hi : m.unparker i = .notified) : m'.unparker i = .notified := by
  cases h with
  | @notify j =>
    by_cases hj : i = j
    · subst hj
      exact (Function.update_self _ _ _).trans (by rw [hi]; rfl)
    · exact (Function.update_of_ne hj _ _).trans hi
  | _ => exact hi

/-- A step of a call leaves the workers where they are, and wakes at most. -/
theorem WillLook.call {k : Call} {k' : Option Call} (h : WillLook c i)
    (hmove : CallMove θ c.shared k m' k') :
    WillLook ⟨m', Function.update c.pc θ { c.pc θ with call := k' }⟩ i := by
  unfold WillLook at h ⊢
  rw [base_update_call]
  exact h.imp_right fun hwait ↦ ⟨hwait.1, hmove.unparker_notified hwait.2⟩

/-- The worker notified will look. -/
theorem willLook_of_notify {G : State → Thread × Label → Prop} {capacity : ℕ} {k' : Option Call}
    (hc : (machine n capacity).ReachableUnder G c) (hk : (c.pc θ).call = some (.notify i))
    (hmove : CallMove θ c.shared (.notify i) m' k') :
    WillLook ⟨m', Function.update c.pc θ { c.pc θ with call := k' }⟩ i := by
  have hne : Thread.worker i ≠ θ := by
    rintro rfl
    have hmay := ((ok_of_reachableUnder hc).2 (.worker i)).call _ hk
    rcases notifiesWaiter_of_reachableUnder hc _ i hk with hb | hb <;>
      simp [hb, Base.mayCall] at hmay
  have hcond := ((ok_of_reachableUnder hc).2 (.worker i)).cond i rfl
  cases hmove
  rcases notifiesWaiter_of_reachableUnder hc θ i hk with hb | hb
  · refine Or.inr ⟨by simp [hne, hb], ?_⟩
    cases hu : c.shared.unparker i <;> simp_all [Condvar.notifyOne]
  · exact Or.inl (by simp [hne, hb, Base.willLook])

/-- A call that has its wake-up before it either keeps it, or has just issued it, or relies on the
wake-up of the holder of the lock. -/
theorem CallMove.beforeWake {k : Call} {k' : Option Call}
    (hR : SyncSlotMap.InRange n m.parkedWorkers) (hn : m.n = n) (hmove : CallMove θ m k m' k')
    (hk : k.beforeWake) :
    (∃ p, k' = some p ∧ p.beforeWake) ∨ (∃ i, k = .notify i) ∨ m'.wakePending = true ∨
      (k = .tryLock ∧ m.parkedLock ≠ none ∧ k' = none ∧ m' = m) := by
  cases hmove with
  | skip hlock => exact Or.inr (Or.inr (Or.inr ⟨rfl, by simp [hlock], rfl, rfl⟩))
  | pop hq =>
    exact Or.inl ⟨_, rfl, by rw [hn]; exact beforeWake_afterPop (hR.step (by simp) hq)⟩
  | @release i again => cases again <;> simp_all [Call.beforeWake]
  | _ => simp_all [Call.beforeWake]

theorem Carried.call {k : Call} {k' : Option Call} {capacity : ℕ}
    {G : State → Thread × Label → Prop} (hc : (machine n capacity).ReachableUnder G c)
    (h : Carried n c) (hG : WakeInForce n c (θ, .step)) (hk : (c.pc θ).call = some k)
    (hmove : CallMove θ c.shared k m' k') :
    Carried n ⟨m', Function.update c.pc θ { c.pc θ with call := k' }⟩ := by
  obtain ⟨hn, hok⟩ := ok_of_reachableUnder hc
  have hR := inRange_of_reachableUnder hc
  rcases h with h | ⟨θ', p, hp, hpre⟩ | h | ⟨i, hi, h⟩
  · cases hmove with
    | push t => exact Or.inr (Or.inl ⟨θ, .tryLock, by simp, trivial⟩)
    | _ => exact Or.inl h
  · by_cases hθ : θ' = θ
    · subst hθ
      obtain rfl : k = p := by simpa [hk] using hp
      rcases hmove.beforeWake hR hn hpre with
        ⟨p', rfl, hp'⟩ | ⟨i, rfl⟩ | hwake | ⟨rfl, hlock, rfl, rfl⟩
      · exact Or.inr (Or.inl ⟨θ', p', by simp, hp'⟩)
      · have hi := ((hok θ').call _ hk).2 i rfl
        exact Or.inr (Or.inr (Or.inr ⟨i, hi, willLook_of_notify hc hk hmove⟩))
      · exact Or.inr (Or.inr (Or.inl hwake))
      -- the call gives up on the lock, and the condition says who else carries the task
      · refine (hG hk hlock).imp_right (Or.imp ?_ (Or.imp_right ?_))
        · rintro ⟨θ, hne, p, hp, hpre⟩
          exact ⟨θ, p, by simpa [hne] using hp, hpre⟩
        · rintro ⟨i, hi, h⟩
          exact ⟨i, hi, h.call hmove⟩
    · exact Or.inr (Or.inl ⟨θ', p, by simpa [hθ] using hp, hpre⟩)
  · exact Or.inr (Or.inr (Or.inl (by cases hmove <;> first | exact h | rfl)))
  · exact Or.inr (Or.inr (Or.inr ⟨i, hi, h.call hmove⟩))

/-- A worker that will look at the queue keeps this up until it has emptied the queue. -/
theorem WorkerMove.willLook {b : Base} (hmove : WorkerMove i m ℓ b a m' ℓ') (hb : ℓ.base = b)
    (hlook : b.willLook) : ℓ'.base.willLook ∨ m'.globalQueue = [] := by
  cases hmove with
  | top => rcases top_base ℓ with h | ⟨t, h⟩ <;> simp [h, Base.willLook]
  | getGlobal =>
    rcases getGlobal_base m ℓ with h | ⟨t, h⟩
    · exact Or.inr (by simp [getGlobal_asleep h])
    · exact Or.inl (by simp [h, Base.willLook])
  | _ => simp_all [Base.willLook]

theorem Carried.worker (h : Carried n c) (hk : (c.pc (.worker i)).call = none) (hi : i < n)
    (hmove : WorkerMove i c.shared (c.pc (.worker i)) (c.pc (.worker i)).base a m' ℓ') :
    Carried n ⟨m', Function.update c.pc (.worker i) ℓ'⟩ := by
  obtain ⟨hqueue, hwake, hwait, hframe⟩ := hmove.frame
  rcases h with h | ⟨θ', p, hp, hpre⟩ | h | ⟨j, hj, h⟩
  · exact Or.inl (hqueue h)
  · have hne : θ' ≠ .worker i := by
      rintro rfl
      simp [hk] at hp
    exact Or.inr (Or.inl ⟨θ', p, by simpa [hne] using hp, hpre⟩)
  · rcases hwake with hwake | hevents
    · exact Or.inr (Or.inr (Or.inl (hwake.trans h)))
    · exact Or.inr (Or.inr (Or.inr ⟨i, hi, Or.inl (by simp [hevents, Base.willLook])⟩))
  · by_cases hij : j = i
    · subst hij
      rcases h with h | ⟨h, -⟩
      · rcases hmove.willLook rfl h with h | h
        · exact Or.inr (Or.inr (Or.inr ⟨j, hj, Or.inl (by simpa using h)⟩))
        · exact Or.inl h
      · have hbase := hwait h
        exact Or.inr (Or.inr (Or.inr ⟨j, hj, Or.inl (by simp [hbase, Base.willLook])⟩))
    · exact Or.inr (Or.inr (Or.inr ⟨j, hj, by simpa [WillLook, hij, hframe j hij] using h⟩))

theorem carried_of_reachableUnder {capacity : ℕ}
    (h : (machine n capacity).ReachableUnder (WakeInForce n) c) : Carried n c := by
  refine System.invariant h ?_ fun c θ a m ℓ hc hC hG hs ↦ ?_
  · rintro _ rfl
    exact Or.inl rfl
  have hok := (ok_of_reachableUnder hc).2
  cases move_of_step hs with
  | call hk hmove => exact hC.call hc hG hk hmove
  | @enter k t _ _ hk =>
    refine hC.imp_right (Or.imp ?_ (Or.imp_right ?_))
    · rintro ⟨θ, p, hp, hpre⟩
      have hne : θ ≠ .other k := by
        rintro rfl
        simp [hk] at hp
      exact ⟨θ, p, by simpa [hne] using hp, hpre⟩
    · rintro ⟨i, hi, h⟩
      exact ⟨i, hi, by simpa [WillLook] using h⟩
  | @worker i _ _ _ _ _ hk hmove =>
    exact hC.worker hk ((hok (.worker i)).lt_of_workerMove hmove) hmove

/-- **No stranded work**, in every run in which the failing `try_lock`s are right about the wake-up
that they rely on. -/
theorem notStranded_of_reachableUnder (n capacity : ℕ) (c : State)
    (h : (machine n capacity).ReachableUnder (WakeInForce n) c) : NotStranded n c := by
  intro hcall hwake hqueue
  rcases carried_of_reachableUnder h with hC | ⟨θ, k, hk, -⟩ | hC | ⟨i, hi, hlook⟩
  · exact absurd hC hqueue
  · simp [hcall θ] at hk
  · simp [hwake] at hC
  · refine ⟨i, hi, ?_⟩
    rintro (hb | ⟨hb, hu⟩) <;> simp_all [WillLook, Base.willLook]

/-! ## A spent wake-up -/

/-- The steps of a worker from the top of the loop, with nothing to do, to the mio poll. -/
def goToPoll (i : ℕ) : List (Thread × Label) :=
  [(.worker i, .step), (.worker i, .step), (.worker i, .step)]

/-- A scheduler pushes task 0 and wakes the driver, with no worker parked, up to its unlock. -/
def wakeDriver : List (Thread × Label) :=
  [(.other 0, .scheduleGlobal 0), (.other 0, .step), (.other 0, .step), (.other 0, .step),
    (.other 0, .step), (.other 0, .step)]

/-- The worker returns from the poll with the wake, runs task 0 and goes back to the poll. -/
def runTask : List (Thread × Label) :=
  [(.worker 0, .pollReturn true), (.worker 0, .step), (.worker 0, .step), (.worker 0, .step),
    (.worker 0, .step), (.worker 0, .step)] ++ goToPoll 0

/-- Another scheduler pushes task 1, fails its `try_lock` and returns; then the first unlocks. -/
def trustSpentWake : List (Thread × Label) :=
  [(.other 1, .scheduleGlobal 1), (.other 1, .step), (.other 1, .step), (.other 0, .step)]

/-- For a concrete run, the threads that move in it are enough to look at. -/
theorem call_eq_none_of_exec {capacity : ℕ} {run : List (Thread × Label)}
    (h : (machine n capacity).exec (.new n capacity) run = some c)
    (hrun : ∀ a ∈ run, (c.pc a.1).call = none) (θ : Thread) : (c.pc θ).call = none := by
  refine System.forall_pc_of_exec (Q := fun _ ℓ ↦ ℓ.call = none) h (fun θ _ ↦ ?_) hrun θ
  cases θ <;> rfl

/-- Where this run ends. -/
def spentWake : State :=
  ((machine 1 32).exec (.new 1 32)
    (goToPoll 0 ++ wakeDriver ++ runTask ++ trustSpentWake)).get (by decide)

/-- Task 1 is stranded: its scheduler found `parked_workers` locked by a thread whose wake-up the
only worker had already answered. -/
theorem stranded_spentWake : ¬∀ (n capacity : ℕ) (c : State), 0 < n →
    (machine n capacity).Reachable c → NotStranded n c := by
  intro h
  have hexec : (machine 1 32).exec (.new 1 32) _ = some spentWake := (Option.some_get _).symm
  obtain ⟨i, hi, hawake⟩ := h 1 32 spentWake Nat.one_pos (.of_exec (.init rfl) hexec)
    (call_eq_none_of_exec hexec (by decide)) (by decide) (by decide)
  obtain rfl : i = 0 := Nat.lt_one_iff.mp hi
  exact hawake (Or.inl (by decide))

/-- The holder of `parked_workers` is just going to wake the driver where a `try_lock` fails. -/
def HolderWakesIo (c : State) (a : Thread × Label) : Prop :=
  (c.pc a.1).call = some .tryLock → ∀ θ ∈ c.shared.parkedLock,
    θ ≠ a.1 ∧ (c.pc θ).call = some .wakeIo

instance (c : State) (a : Thread × Label) : Decidable (HolderWakesIo c a) :=
  inferInstanceAs (Decidable (_ → _))

theorem HolderWakesIo.wakeInForce {b : Thread × Label} (h : HolderWakesIo c b) :
    WakeInForce n c b := by
  intro hcall hlock
  obtain ⟨θ, hθ⟩ := Option.ne_none_iff_exists'.mp hlock
  obtain ⟨hne, hwake⟩ := h hcall θ hθ
  exact Or.inr (Or.inl ⟨θ, hne, _, hwake, by simp [Call.beforeWake]⟩)

/-- A failing `try_lock` that is right, up to the return of the poll with the holder's wake. -/
def trustPendingWake : List (Thread × Label) :=
  goToPoll 0 ++ wakeDriver.take 5 ++ [(.other 1, .scheduleGlobal 1), (.other 1, .step),
    (.other 1, .step), (.other 0, .step), (.other 0, .step), (.worker 0, .pollReturn true)]

def pendingWake : State := ((machine 1 32).exec (.new 1 32) trustPendingWake).get (by decide)

theorem notStranded_pendingWake : (machine 1 32).ReachableUnder (WakeInForce 1) pendingWake ∧
    (∀ θ, (pendingWake.pc θ).call = none) ∧ pendingWake.shared.wakePending = false ∧
    pendingWake.shared.globalQueue = [0, 1] ∧ ∃ i < 1, ¬Asleep pendingWake i := by
  have hexec : (machine 1 32).exec (.new 1 32) trustPendingWake = some pendingWake :=
    (Option.some_get _).symm
  have hforce : (machine 1 32).Along HolderWakesIo (.new 1 32) trustPendingWake := by decide
  have hr := Machine.ReachableUnder.of_exec (.init rfl)
    (hforce.mono fun _ _ h ↦ h.wakeInForce (n := 1)) hexec
  have hcall := call_eq_none_of_exec hexec (by decide)
  exact ⟨hr, hcall, by decide, by decide,
    notStranded_of_reachableUnder 1 32 _ hr hcall (by decide) (by decide)⟩

end ArcDischarge.Runtime
