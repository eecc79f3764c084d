import ArcDischarge.Machine.Fair
import ArcDischarge.Runtime.Awake

/-!
# Where a thread of the runtime can be held up

The calls of the slot map that are in progress are those that the program counters say: a `pop()`
of the scheduler inside it, and a `push` of each worker inside one. So a thread can always take its
next step, except in four places: in the mio poll, in a Condvar wait that has not been notified, and
where it locks a worker's parker, as a scheduler or as that worker. This holds in every
interleaving, spurious returns included.
-/

namespace ArcDischarge.Runtime

variable {n i capacity : ℕ} {θ : Thread} {m m' : Shared} {ℓ ℓ' : Local} {a : Label} {c : State}
  {q q' : SyncSlotMap.State}

/-! ## The calls of the slot map -/

theorem popping_of_pop (h : SyncSlotMap.step q .pop = some q') :
    q.popping = none ∧ q'.popping ≠ none ∧ q'.pushing = q.pushing := by
  cases SyncSlotMap.move_of_step h with
  | pop hp => exact ⟨hp, by simp [SyncSlotMap.State.observe], rfl⟩

theorem popping_of_push {j : ℕ} (h : SyncSlotMap.step q (.push j) = some q') :
    (q'.popping = none ↔ q.popping = none) ∧
      q'.pushing = Function.update q.pushing j (some .reset) := by
  cases SyncSlotMap.move_of_step h with
  | push hp => exact ⟨by simp [SyncSlotMap.State.observe], rfl⟩

theorem popping_of_pushStep {j : ℕ} (h : SyncSlotMap.step q (.pushStep j) = some q') :
    (q'.popping = none ↔ q.popping = none) ∧ ∀ k, k ≠ j → q'.pushing k = q.pushing k := by
  cases SyncSlotMap.move_of_step h with
  | pushStep hp =>
    refine ⟨by simp [SyncSlotMap.State.observe], fun k hk ↦ ?_⟩
    simp [SyncSlotMap.State.observe, hk]

theorem pushing_of_popStep (h : SyncSlotMap.step q .popStep = some q') :
    q'.pushing = q.pushing := by
  cases SyncSlotMap.move_of_step h with
  | popGoOn | popReturn => rfl

theorem afterPop_eq_pop : afterPop n q = .pop ↔ q.popping ≠ none := by
  unfold afterPop
  split
  · rename_i hp
    simp [hp]
  · rename_i hp _
    split_ifs <;> simp [hp]
  · rename_i hp _
    simp [hp]

/-- The slot map is in those calls that the threads are in. -/
structure Matched (c : State) : Prop where
  pop : c.shared.parkedWorkers.popping ≠ none ↔ ∃ θ, (c.pc θ).call = some .pop
  push : ∀ i, c.shared.parkedWorkers.pushing i ≠ none ↔ (c.pc (.worker i)).base = .pushing

theorem Matched.frame (hM : Matched c) (hmap : m'.parkedWorkers = c.shared.parkedWorkers)
    (hcall : (c.pc θ).call ≠ some .pop ∧ ℓ'.call ≠ some .pop)
    (hbase : ∀ i, θ = .worker i → ((c.pc θ).base = .pushing ↔ ℓ'.base = .pushing)) :
    Matched ⟨m', Function.update c.pc θ ℓ'⟩ := by
  refine ⟨?_, fun i ↦ ?_⟩
  · rw [hmap, hM.pop]
    refine exists_congr fun θ' ↦ ?_
    by_cases hθ : θ' = θ
    · subst hθ
      simp [hcall]
    · simp [hθ]
  · rw [hmap, hM.push]
    by_cases hθ : Thread.worker i = θ
    · subst hθ
      simpa using hbase i rfl
    · simp [hθ]

theorem Matched.call {k : Call} {k' : Option Call} (hM : Matched c)
    (hok : ∀ θ, Ok n θ c.shared (c.pc θ)) (hk : (c.pc θ).call = some k)
    (hmove : CallMove θ c.shared k m' k') :
    Matched ⟨m', Function.update c.pc θ { c.pc θ with call := k' }⟩ := by
  have hpush {q : SyncSlotMap.State} (hq : q.pushing = c.shared.parkedWorkers.pushing) (i : ℕ) :
      q.pushing i ≠ none ↔
        (Function.update c.pc θ { c.pc θ with call := k' } (.worker i)).base = .pushing := by
    rw [hq, base_update_call]
    exact hM.push i
  cases hmove with
  | callPop hq =>
    obtain ⟨-, hpop, hpushing⟩ := popping_of_pop hq
    exact ⟨iff_of_true hpop ⟨θ, by simp⟩, hpush hpushing⟩
  | @pop q hq =>
    refine ⟨?_, hpush (pushing_of_popStep hq)⟩
    rw [← afterPop_eq_pop (n := c.shared.n)]
    constructor
    · exact fun h ↦ ⟨θ, by simp [h]⟩
    · rintro ⟨θ', hθ'⟩
      by_cases hθ : θ' = θ
      · subst hθ
        simpa using hθ'
      · -- two threads cannot both have the lock of `parked_workers`
        have hpop : (c.pc θ').call = some .pop := by simpa [hθ] using hθ'
        have hlock := (hok θ').parked.mpr ⟨_, hpop, trivial⟩
        rw [(hok θ).parked.mpr ⟨_, hk, trivial⟩] at hlock
        exact absurd (Option.some.inj hlock).symm hθ
  | @release i again =>
    refine hM.frame rfl ⟨by simp [hk], ?_⟩ fun _ _ ↦ Iff.rfl
    cases again <;> simp
  | _ => exact hM.frame rfl ⟨by simp [hk], by simp⟩ fun _ _ ↦ Iff.rfl

theorem Matched.worker (hM : Matched c) (hk : (c.pc (.worker i)).call = none)
    (hmove : WorkerMove i c.shared (c.pc (.worker i)) (c.pc (.worker i)).base a m' ℓ') :
    Matched ⟨m', Function.update c.pc (.worker i) ℓ'⟩ := by
  have hcall : (c.pc (.worker i)).call ≠ some .pop ∧ ℓ'.call ≠ some .pop := by
    refine ⟨by simp [hk], ?_⟩
    rcases hmove.call_eq rfl hk with h | ⟨⟨t, h⟩, -⟩ <;> simp [h]
  have hpop {q : SyncSlotMap.State}
      (hq : q.popping = none ↔ c.shared.parkedWorkers.popping = none) :
      q.popping ≠ none ↔ ∃ θ, (Function.update c.pc (.worker i) ℓ' θ).call = some .pop := by
    rw [Ne, hq]
    refine hM.pop.trans (exists_congr fun θ ↦ ?_)
    by_cases hθ : θ = .worker i
    · simp [hθ, hcall]
    · simp [hθ]
  have hpush {q : SyncSlotMap.State}
      (hother : ∀ j, j ≠ i → q.pushing j = c.shared.parkedWorkers.pushing j)
      (hown : q.pushing i ≠ none ↔ ℓ'.base = .pushing) (j : ℕ) : q.pushing j ≠ none ↔
        (Function.update c.pc (.worker i) ℓ' (.worker j)).base = .pushing := by
    by_cases hj : j = i
    · rw [hj, Function.update_self]
      exact hown
    · rw [hother j hj, Function.update_of_ne fun h ↦ hj (Thread.worker.inj h)]
      exact hM.push j
  generalize hb : (c.pc (.worker i)).base = b at hmove
  cases hmove with
  | push hp hq =>
    obtain ⟨hpopping, hpushing⟩ := popping_of_push hq
    refine ⟨hpop hpopping, hpush (fun j hj ↦ ?_) ?_⟩
    · rw [hpushing, Function.update_of_ne hj]
    · simp [hpushing]
  | @pushStep q hq =>
    obtain ⟨hpopping, hpushing⟩ := popping_of_pushStep hq
    refine ⟨hpop hpopping, hpush hpushing ?_⟩
    dsimp only
    split_ifs with hdone <;> simp [hdone]
  | top =>
    refine hM.frame rfl hcall fun _ _ ↦ ?_
    rw [hb]
    exact of_top (P := fun b ↦ _ ↔ b = .pushing) (by simp) (by simp)
  | getGlobal =>
    refine hM.frame rfl hcall fun _ _ ↦ ?_
    rw [hb]
    exact of_getGlobal (P := fun b ↦ _ ↔ b = .pushing) (by simp) (by simp)
  | runningLocal | eventsLocal =>
    exact hM.frame rfl hcall fun _ _ ↦ by rw [scheduleLocal_base]
  | _ => exact hM.frame rfl hcall fun _ _ ↦ by simp [hb]

theorem matched_of_reachableUnder {G : State → Thread × Label → Prop}
    (h : (machine n capacity).ReachableUnder G c) : Matched c := by
  refine System.invariant h ?_ fun c θ a m ℓ hc hM _ hs ↦ ?_
  · rintro _ rfl
    refine ⟨iff_of_false (fun h ↦ h rfl) ?_, fun i ↦ iff_of_false (fun h ↦ h rfl) ?_⟩
    · rintro ⟨θ, hθ⟩
      cases θ <;> cases hθ
    · by_cases hi : i < n <;> simp [State.new, Local.new, hi]
  have hok := (ok_of_reachableUnder hc).2
  cases move_of_step hs with
  | call hk hmove => exact hM.call hok hk hmove
  | enter hk => exact hM.frame rfl ⟨by simp [hk], by simp⟩ fun _ _ ↦ Iff.rfl
  | worker hk hmove => exact hM.worker hk hmove

/-! ## The next step -/

/-- The turn of a thread: it goes on with what it is doing. -/
def takes (θ : Thread) (a : Thread × Label) : Prop := a = (θ, .step)

/-- The thread waits for the lock of a worker's parker. -/
def AwaitsParker (c : State) (θ : Thread) (i : ℕ) : Prop :=
  (c.pc θ).call = some (.lockParker i) ∨
    (θ = .worker i ∧ (c.pc θ).call = none ∧
      ((c.pc θ).base = .lockParker ∨ (c.pc θ).base = .relock))

theorem isSome_popStep (h : q.popping ≠ none) : (SyncSlotMap.step q .popStep).isSome := by
  obtain ⟨c, hc⟩ := Option.ne_none_iff_exists'.mp h
  simp only [SyncSlotMap.step, hc]
  split <;> rfl

theorem isSome_pushStep (h : q.pushing i ≠ none) : (SyncSlotMap.step q (.pushStep i)).isSome := by
  obtain ⟨pc, hpc⟩ := Option.ne_none_iff_exists'.mp h
  simp [SyncSlotMap.step, hpc]

/-- A call goes on, unless it waits for a parker. -/
theorem enabled_call {k : Call} (hc : (machine n capacity).Reachable c)
    (hk : (c.pc θ).call = some k) (hfree : ∀ i, AwaitsParker c θ i → c.shared.parkerLock i = none) :
    (machine n capacity).Enabled (takes θ) c := by
  have hM := matched_of_reachableUnder hc
  have hok := (ok_of_reachableUnder hc).2
  refine System.enabled_of_step (A := takes θ) (a := .step) rfl ?_
  have hstep : (callStep θ c.shared k).isSome := by
    cases k with
    | push | notify | release | wakeIo | unlock => rfl
    | tryLock =>
      simp only [callStep]
      split <;> rfl
    | callPop =>
      -- nobody else is inside a `pop()`, for want of the lock
      have hnone : c.shared.parkedWorkers.popping = none := by
        by_contra hpop
        obtain ⟨θ', hθ'⟩ := hM.pop.mp hpop
        have hlock := (hok θ').parked.mpr ⟨_, hθ', trivial⟩
        rw [(hok θ).parked.mpr ⟨_, hk, trivial⟩] at hlock
        cases Option.some.inj hlock
        cases hk.symm.trans hθ'
      simp [callStep, SyncSlotMap.step, hnone]
    | pop => simpa [callStep] using isSome_popStep (hM.pop.mpr ⟨θ, hk⟩)
    | lockParker i => simp [callStep, hfree i (Or.inl hk)]
    | inspect i =>
      simp only [callStep]
      split <;> rfl
    | panicked => exact absurd hk (call_ne_panicked_of_reachable hc θ)
  simpa [system, step, hk] using hstep

/-- A worker goes on, unless it sleeps or waits for its parker. -/
theorem enabled_worker (hc : (machine n capacity).Reachable c) (hi : i < n)
    (hk : (c.pc (.worker i)).call = none) (hawake : ¬Asleep c i)
    (hfree : AwaitsParker c (.worker i) i → c.shared.parkerLock i = none) :
    (machine n capacity).Enabled (takes (.worker i)) c := by
  have hM := matched_of_reachableUnder hc
  have hok := (ok_of_reachableUnder hc).2 (.worker i)
  have houtside : (c.pc (.worker i)).base ≠ .outside := hok.worker.mpr ⟨i, hi, rfl⟩
  have hclear := hok.parker_eq_none
  have hpushing := hM.push i
  refine System.enabled_of_step (A := takes (.worker i)) (a := .step) rfl ?_
  have hstep : (workerStep i c.shared (c.pc (.worker i)) (c.pc (.worker i)).base .step).isSome := by
    rw [Asleep] at hawake
    simp only [AwaitsParker, hk, reduceCtorEq, true_and, false_or] at hfree
    generalize (c.pc (.worker i)).base = b at hawake hfree houtside hclear hpushing
    cases b with
    | outside => exact absurd rfl houtside
    | polling => simp at hawake
    | waiting => simp_all [workerStep]
    | lockParker | relock => simp [workerStep, hfree]
    | tryLockIo =>
      simp only [workerStep]
      split <;> rfl
    | checkParker =>
      have hnone : c.shared.parkedWorkers.pushing i = none := by
        by_contra hne
        cases hpushing.mp hne
      simp [workerStep, hclear id, SyncSlotMap.step, hnone]
    | pushing => simpa [workerStep] using isSome_pushStep (hpushing.mpr rfl)
    | _ => rfl
  simpa [system, step, hk] using hstep

/-- Who has the lock of a parker waits for none. -/
theorem not_awaits_of_lock {j : ℕ} (hok : ∀ θ, Ok n θ c.shared (c.pc θ))
    (hlock : c.shared.parkerLock i = some θ) : ¬AwaitsParker c θ j := by
  rintro (hk | ⟨rfl, hk, hb⟩)
  · rcases ((hok θ).parker i).mp hlock with ⟨k, hk', hheld⟩ | ⟨rfl, hheld⟩
    · cases hk.symm.trans hk'
      exact hheld
    · exact (hok _).not_holdsParker hk hheld
  · rcases ((hok _).parker i).mp hlock with ⟨k, hk', -⟩ | ⟨-, hheld⟩
    · cases hk.symm.trans hk'
    · rcases hb with hb | hb <;> rw [hb] at hheld <;> exact hheld

/-- Whoever has the lock of a worker's parker goes on. -/
theorem enabled_holder (hc : (machine n capacity).Reachable c)
    (hlock : c.shared.parkerLock i = some θ) : (machine n capacity).Enabled (takes θ) c := by
  have hok := (ok_of_reachableUnder hc).2
  have hnot (j : ℕ) : ¬AwaitsParker c θ j := not_awaits_of_lock hok hlock
  by_cases hk : (c.pc θ).call = none
  · rcases ((hok θ).parker i).mp hlock with ⟨k, hk', -⟩ | ⟨rfl, hheld⟩
    · cases hk.symm.trans hk'
    · have hbase : (c.pc (.worker i)).base ≠ .outside := by
        intro hb
        rw [hb] at hheld
        exact hheld
      obtain ⟨j, hj, hij⟩ := (hok _).worker.mp hbase
      cases hij
      refine enabled_worker hc hj hk ?_ fun hawaits ↦ absurd hawaits (hnot i)
      rintro (hb | ⟨hb, -⟩) <;> rw [hb] at hheld <;> exact hheld
  · obtain ⟨k, hk⟩ := Option.ne_none_iff_exists'.mp hk
    exact enabled_call hc hk fun j hawaits ↦ absurd hawaits (hnot j)

/-- The thread has nothing to do: it is in no call, and if it is a worker, it is asleep. -/
def Rests (n : ℕ) (c : State) (θ : Thread) : Prop :=
  (c.pc θ).call = none ∧ ∀ i, i < n → θ = .worker i → Asleep c i

/-- **No deadlock.** In every interleaving, a thread that does not rest can go on, or it waits for
the parker of a worker that another thread has locked, and that one can go on. -/
theorem goesOn_of_reachable (c : State) (h : (machine n capacity).Reachable c) (θ : Thread) :
    Rests n c θ ∨ (machine n capacity).Enabled (takes θ) c ∨
      ∃ i θ', AwaitsParker c θ i ∧ c.shared.parkerLock i = some θ' ∧ θ' ≠ θ ∧
        (machine n capacity).Enabled (takes θ') c := by
  by_cases hfree : ∀ i, AwaitsParker c θ i → c.shared.parkerLock i = none
  · by_cases hk : (c.pc θ).call = none
    · by_cases hrests : Rests n c θ
      · exact Or.inl hrests
      · simp only [Rests, hk, true_and, not_forall] at hrests
        obtain ⟨i, hi, rfl, hawake⟩ := hrests
        exact Or.inr (Or.inl (enabled_worker h hi hk hawake (hfree i)))
    · obtain ⟨k, hk⟩ := Option.ne_none_iff_exists'.mp hk
      exact Or.inr (Or.inl (enabled_call h hk hfree))
  · push Not at hfree
    obtain ⟨i, hawaits, hheld⟩ := hfree
    obtain ⟨θ', hlock⟩ := Option.ne_none_iff_exists'.mp hheld
    refine Or.inr (Or.inr ⟨i, θ', hawaits, hlock, ?_, enabled_holder h hlock⟩)
    rintro rfl
    exact not_awaits_of_lock (ok_of_reachableUnder h).2 hlock hawaits

/-- Worker 1 has pushed itself and not yet begun to wait; a scheduler has popped it. -/
def caughtParking : State :=
  ((machine 2 32).exec (.new 2 32) (List.replicate 3 (.worker 0, .step) ++
    List.replicate 8 (.worker 1, .step) ++ (.other 0, .scheduleGlobal 0) ::
    List.replicate 12 (.other 0, .step))).get (by decide)

theorem goesOn_caughtParking : AwaitsParker caughtParking (.other 0) 1 ∧
    caughtParking.shared.parkerLock 1 = some (.worker 1) ∧
    (Rests 2 caughtParking (.other 0) ∨ (machine 2 32).Enabled (takes (.other 0)) caughtParking ∨
      ∃ i θ', AwaitsParker caughtParking (.other 0) i ∧
        caughtParking.shared.parkerLock i = some θ' ∧ θ' ≠ .other 0 ∧
        (machine 2 32).Enabled (takes θ') caughtParking) := by
  have hexec : (machine 2 32).exec (.new 2 32) _ = some caughtParking := (Option.some_get _).symm
  exact ⟨Or.inl (by decide), by decide,
    goesOn_of_reachable caughtParking (.of_exec (.init rfl) hexec) (.other 0)⟩

end ArcDischarge.Runtime
