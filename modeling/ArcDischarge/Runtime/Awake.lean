import ArcDischarge.Runtime.Wakeup

/-!
# Somebody stays awake

A worker gives up and parks when its `try_lock` of the driver fails. Whoever holds the driver at
that moment is a worker too, and is not parked: the guard lives only around `poll_timeout`. So the
last worker awake always gets the driver, and this is kept by every step of every thread, whatever
happens to the lock between the failed `try_lock` and the wait.
-/

namespace ArcDischarge.Runtime

/-- The worker runs a task, looks for one, or polls the driver. The rest of the loop is the way from
a failed `try_lock` of the driver to the return of `unparker.wait`. -/
def Base.awake : Base → Prop
  | .running _ | .top | .getGlobal | .tryLockIo => True
  | .polling | .events | .unlockIo => True
  | .unpark | .release => True
  | .outside | .lockParker | .checkParker | .pushing | .park | .wait | .waiting | .relock => False

/-- Some worker is awake, and whoever has the driver is a worker that polls it. -/
structure SomeAwake (n : ℕ) (c : State) : Prop where
  awake : ∃ i < n, (c.pc (.worker i)).base.awake ∧ (c.pc (.worker i)).call ≠ some .panicked
  driver : ∀ θ, c.shared.ioDriver = some θ →
    ∃ i < n, θ = .worker i ∧ (c.pc (.worker i)).base.holdsIo

variable {n i : ℕ} {θ : Thread} {m m' : Shared} {ℓ ℓ' : Local} {a : Label} {c : State}

theorem Base.awake_of_holdsIo {b : Base} (h : b.holdsIo) : b.awake := by
  cases b <;> trivial

theorem CallMove.ne_panicked {k k' : Call} (hR : SyncSlotMap.InRange n m.parkedWorkers)
    (hn : m.n = n) (h : CallMove θ m k m' (some k')) : k' ≠ .panicked := by
  cases h with
  | pop hq =>
    intro hpanic
    have hafter := beforeWake_afterPop (hR.step (by simp) hq)
    rw [← hn, hpanic] at hafter
    exact hafter
  | release =>
    split_ifs <;> simp
  | _ => simp

/-- No `schedule_global` call panics on the index it pops. -/
theorem call_ne_panicked_of_reachable {capacity : ℕ} (h : (machine n capacity).Reachable c) :
    ∀ θ, (c.pc θ).call ≠ some .panicked := by
  refine System.invariant (I := fun c ↦ ∀ θ, (c.pc θ).call ≠ some .panicked) h ?_
    fun c θ a m ℓ hc hI _ hs θ' ↦ ?_
  · rintro _ rfl (i | k) <;> simp [State.new, Local.new]
  change (Function.update c.pc θ ℓ θ').call ≠ some .panicked
  by_cases hθ : θ' = θ
  · subst hθ
    rw [Function.update_self]
    cases move_of_step hs with
    | @call _ _ _ _ k k' hk hmove =>
      intro hpanic
      change k' = some .panicked at hpanic
      subst hpanic
      exact hmove.ne_panicked (inRange_of_reachableUnder hc) (ok_of_reachableUnder hc).1 rfl
    | enter hk => simp
    | @worker i _ _ _ _ _ hk hmove =>
      generalize hb : (c.pc (.worker i)).base = b at hmove
      cases hmove with
      | top => simp [hk]
      | getGlobal => simp [hk]
      | runningLocal | eventsLocal =>
        rcases scheduleLocal_call c.shared (c.pc (.worker i)) _ with hcall | hcall
        · rw [hcall, hk]
          simp
        · rw [hcall]
          simp
      | _ => simp [hk]
  · rw [Function.update_of_ne hθ]
    exact hI θ'

/-- A worker falls asleep only where it finds the driver taken. -/
theorem WorkerMove.awake {b : Base} (h : WorkerMove i m ℓ b a m' ℓ') (hb : ℓ.base = b)
    (hawake : b.awake) : ℓ'.base.awake ∨ ∃ θ, m.ioDriver = some θ ∧ ¬b.holdsIo := by
  cases h with
  | top =>
    left
    rcases top_base ℓ with h | ⟨t, h⟩ <;> rw [h] <;> trivial
  | getGlobal =>
    left
    rcases getGlobal_base m ℓ with h | ⟨t, h⟩ <;> rw [h] <;> trivial
  | runningLocal | eventsLocal =>
    left
    rw [scheduleLocal_base, hb]
    trivial
  | runningGlobal | eventsGlobal =>
    left
    change ℓ.base.awake
    rw [hb]
    trivial
  | noIo h => exact .inr ⟨_, h, id⟩
  | checkParked | push | pushStep | park | wait | notified | spurious | relock | lockParker =>
    exact absurd hawake id
  | _ => exact .inl trivial

/-- Who is awake after a step of worker `i`: if the worker itself has fallen asleep, the holder of
the driver that it ran into. -/
theorem exists_awake_of_workerMove (hok : ∀ θ, Ok n θ c.shared (c.pc θ)) (hi : i < n)
    (hmove : WorkerMove i c.shared (c.pc (.worker i)) (c.pc (.worker i)).base a m' ℓ')
    (hI : ∃ j < n, (c.pc (.worker j)).base.awake) :
    ∃ j < n, (Function.update c.pc (.worker i) ℓ' (.worker j)).base.awake := by
  obtain ⟨j, hj, hawake⟩ := hI
  by_cases hij : j = i
  · subst hij
    rcases hmove.awake rfl hawake with hown | ⟨θ, hθ, hnot⟩
    · exact ⟨j, hj, by rwa [Function.update_self]⟩
    · -- the holder has the driver because of where it stands, so it is not the worker that moved
      have hio := (hok θ).io.mp hθ
      have hne : θ ≠ .worker j := fun h ↦ hnot (h ▸ hio)
      obtain ⟨k, hk, rfl⟩ := (hok θ).worker.mp fun h ↦ by simp [h, Base.holdsIo] at hio
      exact ⟨k, hk, by rw [Function.update_of_ne hne]; exact Base.awake_of_holdsIo hio⟩
  · exact ⟨j, hj, by rwa [Function.update_of_ne fun h ↦ hij (Thread.worker.inj h)]⟩

theorem exists_awake_of_reachable {capacity : ℕ} (hn : 1 ≤ n)
    (h : (machine n capacity).Reachable c) : ∃ i < n, (c.pc (.worker i)).base.awake := by
  refine System.invariant (I := fun c ↦ ∃ i < n, (c.pc (.worker i)).base.awake) h ?_
    fun c θ a m ℓ hc hI _ hs ↦ ?_
  · rintro _ rfl
    refine ⟨0, hn, ?_⟩
    have hbase : ((State.new n capacity).pc (.worker 0)).base = .top := if_pos hn
    rw [hbase]
    trivial
  have hok := (ok_of_reachableUnder hc).2
  cases move_of_step hs with
  | call hk hmove => simpa only [base_update_call] using hI
  | enter hk => simpa only [base_update_call] using hI
  | @worker i _ _ _ _ _ hk hmove =>
    exact exists_awake_of_workerMove hok ((hok (.worker i)).lt_of_workerMove hmove) hmove hI

/-- **The runtime never sleeps as a whole.** In every interleaving of the workers and of any number
of schedulers, some worker is awake. -/
theorem someAwake_of_reachable (n capacity : ℕ) (c : State) (hn : 1 ≤ n)
    (h : (machine n capacity).Reachable c) : SomeAwake n c := by
  refine ⟨?_, fun θ hθ ↦ ?_⟩
  · obtain ⟨i, hi, hawake⟩ := exists_awake_of_reachable hn h
    exact ⟨i, hi, hawake, call_ne_panicked_of_reachable h _⟩
  · have hok := (ok_of_reachableUnder h).2 θ
    have hio := hok.io.mp hθ
    obtain ⟨i, hi, rfl⟩ := hok.worker.mp fun hout ↦ by simp [hout, Base.holdsIo] at hio
    exact ⟨i, hi, rfl, hio⟩

/-- Worker 0 has taken the driver, worker 1 is parked, and worker 0 has released the driver. -/
def lastAwake : State :=
  ((machine 2 32).exec (.new 2 32) (List.replicate 3 (.worker 0, .step) ++
    List.replicate 10 (.worker 1, .step) ++ (.worker 0, .pollReturn false) ::
    List.replicate 2 (.worker 0, .step))).get (by decide)

theorem someAwake_lastAwake : (machine 2 32).Reachable lastAwake ∧
    (lastAwake.pc (.worker 1)).base = .waiting ∧ lastAwake.shared.ioDriver = none ∧
    SomeAwake 2 lastAwake := by
  have hexec : (machine 2 32).exec (.new 2 32) _ = some lastAwake := (Option.some_get _).symm
  have hr : (machine 2 32).Reachable lastAwake := .of_exec (.init rfl) hexec
  exact ⟨hr, by decide, by decide, someAwake_of_reachable 2 32 _ (by decide) hr⟩

end ArcDischarge.Runtime
