import ArcDischarge.Runtime.Calls
import ArcDischarge.Runtime.Parking

/-!
# Every `schedule_global` returns

In a fair run the locks of the parkers come free again and again: their holders only have a few
steps to do. A `schedule_global` that has the lock of `parked_workers` goes round its loop until it
has found a worker whose parker is set. Where the parking protocol is kept, the first worker that it
pops is one. So the call is over after a bounded number of its own steps, and none of them can be
held up for good.
-/

namespace ArcDischarge.Runtime

open Machine Run

variable {n i capacity : ℕ} {θ θ' : Thread} {m m' : Shared} {ℓ ℓ' : Local} {a : Label} {c : State}
  {q q' : SyncSlotMap.State} {r : (machine n capacity).Run}

/-- Every thread that can go on again and again does so, and gets the locks that it waits for. -/
def Fair (r : (machine n capacity).Run) : Prop := ∀ θ, r.StronglyFair (takes θ)

/-! ## The locks of the parkers -/

/-- How far a `push` is from its return. -/
def pushLeft : Option SyncSlotMap.PushPc → ℕ
  | some .reset => 3
  | some .swap => 2
  | some (.link _) => 1
  | _ => 0

theorem pushLeft_push {mem : SyncSlotMap.Mem} {pc : SyncSlotMap.PushPc} (hpc : pc ≠ .panicked) :
    pushLeft (mem.push i pc).2 < pushLeft (some pc) := by
  cases pc with
  | reset | link =>
    simp only [SyncSlotMap.Mem.push]
    split <;> simp [pushLeft]
  | swap => simp [SyncSlotMap.Mem.push, pushLeft]
  | panicked => exact absurd rfl hpc

theorem pushLeft_pushStep (hR : SyncSlotMap.InRange n q)
    (h : SyncSlotMap.step q (.pushStep i) = some q') :
    pushLeft (q'.pushing i) < pushLeft (q.pushing i) := by
  cases SyncSlotMap.move_of_step h with
  | @pushStep _ pc hp =>
    have hpc := (hR.push i pc hp).2
    simp only [SyncSlotMap.State.observe, Function.update_self, hp]
    refine pushLeft_push ?_
    rintro rfl
    exact hpc

/-- A worker's `push` is its own business. -/
theorem Move.pushing_of_ne (h : Move θ m ℓ a m' ℓ') (hθ : θ ≠ .worker i) :
    m'.parkedWorkers.pushing i = m.parkedWorkers.pushing i := by
  cases h with
  | call hk hmove =>
    cases hmove with
    | callPop hq => rw [(popping_of_pop hq).2.2]
    | pop hq => rw [pushing_of_popStep hq]
    | _ => rfl
  | enter => rfl
  | @worker j _ _ ℓ _ _ hk hmove =>
    have hij : i ≠ j := fun h ↦ hθ (h ▸ rfl)
    generalize ℓ.base = b at hmove
    cases hmove with
    | push hp hq => rw [(popping_of_push hq).2, Function.update_of_ne hij]
    | pushStep hq => rw [(popping_of_pushStep hq).2 i hij]
    | _ => rfl

def Call.toRelease : Call → ℕ
  | .inspect _ => 3
  | .notify _ => 2
  | .release _ _ => 1
  | _ => 0

def Base.toRelease (pc : Option SyncSlotMap.PushPc) : Base → ℕ
  | .checkParker => 6
  | .pushing => 2 + pushLeft pc
  | .park | .unpark => 2
  | .wait | .release => 1
  | _ => 0

/-- How far the holder of worker `i`'s parker is from its release. -/
def toRelease (i : ℕ) (θ : Thread) (c : State) : ℕ :=
  match (c.pc θ).call with
  | some k => k.toRelease
  | none => (c.pc θ).base.toRelease (c.shared.parkedWorkers.pushing i)

theorem CallMove.toRelease {k : Call} {k' : Option Call} (h : CallMove θ m k m' k')
    (hk : k.holdsParker i) (hlock : m.parkerLock i = some θ) :
    m'.parkerLock i = none ∨ m'.parkerLock i = some θ ∧
      ∃ p, k' = some p ∧ p.toRelease < k.toRelease := by
  cases h with
  | inspectParked | inspectNone | notify => exact Or.inr ⟨hlock, _, rfl, by simp [Call.toRelease]⟩
  | release =>
    obtain rfl : _ = i := hk
    exact Or.inl (by simp)
  | _ => exact absurd hk id

theorem WorkerMove.toRelease {b : Base} (h : WorkerMove i m ℓ b a m' ℓ')
    (hR : SyncSlotMap.InRange n m.parkedWorkers) (hb : b.holdsParker) (hk : ℓ.call = none)
    (hlock : m.parkerLock i = some (.worker i)) :
    m'.parkerLock i = none ∨ m'.parkerLock i = some (.worker i) ∧ ℓ'.call = none ∧
      ℓ'.base.toRelease (m'.parkedWorkers.pushing i) <
        b.toRelease (m.parkedWorkers.pushing i) := by
  cases h with
  | wait | release => exact Or.inl (by simp)
  | checkParked | park | unpark => exact Or.inr ⟨hlock, hk, by simp [Base.toRelease]⟩
  | push hp hq =>
    refine Or.inr ⟨hlock, hk, ?_⟩
    simp [(popping_of_push hq).2, Base.toRelease, pushLeft]
  | @pushStep q hq =>
    refine Or.inr ⟨hlock, hk, ?_⟩
    have hlt := pushLeft_pushStep hR hq
    dsimp only
    split_ifs with hdone
    · simp only [Base.toRelease]
      omega
    · simpa [Base.toRelease] using hlt
  | _ => exact absurd hb id

/-- The holder of a parker comes nearer to its release with each of its steps. -/
theorem toRelease_lt (hc : (machine n capacity).Reachable c)
    (hlock : c.shared.parkerLock i = some θ) (hs : step θ c.shared (c.pc θ) a = some (m, ℓ)) :
    m.parkerLock i = none ∨ m.parkerLock i = some θ ∧
      toRelease i θ ⟨m, Function.update c.pc θ ℓ⟩ < toRelease i θ c := by
  have hok := (ok_of_reachableUnder hc).2
  have hheld := ((hok θ).parker i).mp hlock
  cases move_of_step hs with
  | @call _ _ _ _ k k' hk hmove =>
    have hk' : k.holdsParker i := by
      rcases hheld with ⟨k₀, hk₀, hheld⟩ | ⟨-, hheld⟩
      · rwa [Option.some.inj (hk.symm.trans hk₀)]
      · exact absurd hheld ((hok θ).not_holdsParker hk)
    refine (hmove.toRelease hk' hlock).imp id fun hkeep ↦ ⟨hkeep.1, ?_⟩
    obtain ⟨p, rfl, hlt⟩ := hkeep.2
    simpa [toRelease, hk] using hlt
  | enter hk =>
    rcases hheld with ⟨k, hk', -⟩ | ⟨hworker, -⟩
    · cases hk.symm.trans hk'
    · cases hworker
  | @worker j _ _ _ _ _ hk hmove =>
    rcases hheld with ⟨k, hk', -⟩ | ⟨hworker, hheld⟩
    · cases hk.symm.trans hk'
    · cases hworker
      refine (hmove.toRelease (inRange_of_reachableUnder hc) hheld hk hlock).imp id
        fun hkeep ↦ ⟨hkeep.1, ?_⟩
      simpa [toRelease, hk, hkeep.2.1] using hkeep.2.2

theorem leadsTo_unlocked_of_lock (hfair : Fair r) : r.LeadsTo
    (fun c ↦ c.shared.parkerLock i = some θ) fun c ↦ c.shared.parkerLock i = none := by
  have hserved : r.Served (takes θ) fun c ↦ c.shared.parkerLock i = some θ :=
    (hfair θ).weaklyFair.served fun c hc hlock ↦ enabled_holder hc hlock
  refine hserved.leadsTo (toRelease i θ) fun c a d hc hlock hcd ↦ ?_
  have hheld := (((ok_of_reachableUnder hc).2 θ).parker i).mp hlock
  have hd := (ok_of_reachableUnder (.step hc trivial hcd)).2 θ
  obtain ⟨θ', a⟩ := a
  obtain ⟨m, ℓ, hs, rfl⟩ := System.machine_step_eq_some.mp hcd
  by_cases hθ : θ = θ'
  · subst hθ
    exact (toRelease_lt hc hlock hs).imp id (And.imp id Or.inl)
  · simp only [Function.update_of_ne hθ] at hd
    refine Or.inr ⟨(hd.parker i).mpr hheld, Or.inr ⟨?_, fun ha ↦ hθ (Prod.mk.inj ha).1.symm⟩⟩
    simp only [toRelease, Function.update_of_ne hθ]
    rcases hheld with ⟨k, hk, -⟩ | ⟨rfl, -⟩
    · simp [hk]
    · rw [Move.pushing_of_ne (move_of_step hs) (Ne.symm hθ)]

/-- **The parkers come free** again and again. -/
theorem leadsTo_unlocked (hfair : Fair r) (i : ℕ) :
    r.LeadsTo (fun _ ↦ True) fun c ↦ c.shared.parkerLock i = none := by
  intro k _
  cases hlock : (r.state k).shared.parkerLock i with
  | none => exact ⟨k, le_rfl, hlock⟩
  | some θ => exact leadsTo_unlocked_of_lock hfair k hlock

/-! ## The turn of a thread -/

/-- The thread has something to go on with: a call, or the loop of a worker outside its sleep. -/
def Local.goesOn (ℓ : Local) : Prop :=
  ℓ.call ≠ none ∨ ℓ.base ≠ .outside ∧ ℓ.base ≠ .polling ∧ ℓ.base ≠ .waiting

theorem AwaitsParker.eq {i j : ℕ} (hi : AwaitsParker c θ i) (hj : AwaitsParker c θ j) : i = j := by
  rcases hi with hi | ⟨rfl, hi, -⟩
  · rcases hj with hj | ⟨-, hj, -⟩
    · cases hi.symm.trans hj
      rfl
    · cases hi.symm.trans hj
  · rcases hj with hj | ⟨hj, -, -⟩
    · cases hi.symm.trans hj
    · exact Thread.worker.inj hj

theorem enabled_of_goesOn (hc : (machine n capacity).Reachable c) (hgo : (c.pc θ).goesOn)
    (hfree : ∀ i, AwaitsParker c θ i → c.shared.parkerLock i = none) :
    (machine n capacity).Enabled (takes θ) c := by
  by_cases hk : (c.pc θ).call = none
  · obtain ⟨houtside, hpolling, hwaiting⟩ := hgo.resolve_left fun h ↦ h hk
    obtain ⟨i, hi, rfl⟩ := ((ok_of_reachableUnder hc).2 θ).worker.mp houtside
    refine enabled_worker hc hi hk ?_ (hfree i)
    rintro (h | ⟨h, -⟩)
    · exact hpolling h
    · exact hwaiting h
  · obtain ⟨k, hk⟩ := Option.ne_none_iff_exists'.mp hk
    exact enabled_call hc hk hfree

/-- A thread is not held up for good at a lock. -/
theorem served_pc (hfair : Fair r) (hgo : ℓ.goesOn) :
    r.Served (takes θ) fun c ↦ c.pc θ = ℓ := by
  refine (hfair θ).served fun k hk ↦ ?_
  have hawaits {l : ℕ} (hl : (r.state l).pc θ = ℓ) (i : ℕ) :
      AwaitsParker (r.state l) θ i ↔ AwaitsParker (r.state k) θ i := by
    rw [AwaitsParker, AwaitsParker, hl, hk]
  by_cases hlock : ∃ i, AwaitsParker (r.state k) θ i
  · obtain ⟨i, hi⟩ := hlock
    obtain ⟨l, hl, hfree⟩ := leadsTo_unlocked hfair i k trivial
    refine ⟨l, hl, fun hpc ↦ enabled_of_goesOn (r.reachable l) (hpc ▸ hgo) fun j hj ↦ ?_⟩
    rwa [AwaitsParker.eq ((hawaits hpc j).mp hj) hi]
  · refine ⟨k, le_rfl, fun hpc ↦ enabled_of_goesOn (r.reachable k) (hpc ▸ hgo) fun j hj ↦ ?_⟩
    exact absurd ⟨j, hj⟩ hlock

/-- Its next step, taken where it stands. -/
theorem exists_step (hfair : Fair r) {k : ℕ} (hk : (r.state k).pc θ = ℓ) (hgo : ℓ.goesOn) :
    ∃ l a m ℓ', k ≤ l ∧ (r.state l).pc θ = ℓ ∧ r.act l = some (θ, a) ∧
      Move θ (r.state l).shared ℓ a m ℓ' ∧
      r.state (l + 1) = ⟨m, Function.update (r.state l).pc θ ℓ'⟩ := by
  obtain ⟨l, a, m, ℓ', hl, hpc, hact, hs, hd⟩ :=
    System.exists_turn hk (fun x hx ↦ by rw [hx]) (served_pc hfair hgo k)
  exact ⟨l, a, m, ℓ', hl, hpc, hact, move_of_step hs, hd⟩

/-! ## The calls -/

/-- Under the parking protocol the loop of `schedule_global` is not gone round a second time. -/
theorem call_ne_again (h : (machine n capacity).ReachableUnder ResumesCleared c) (θ : Thread)
    (i : ℕ) : (c.pc θ).call ≠ some (.release i true) := by
  refine System.invariant (I := fun c ↦ ∀ θ i, (c.pc θ).call ≠ some (.release i true)) h ?_
    (fun c θ a m ℓ hc hI _ hs θ' i ↦ ?_) θ i
  · rintro _ rfl (i | k) j <;> simp [State.new, Local.new]
  obtain ⟨hn, hok⟩ := ok_of_reachableUnder hc
  change (Function.update c.pc θ ℓ θ').call ≠ some (.release i true)
  by_cases hθ : θ' = θ
  swap
  · rw [Function.update_of_ne hθ]
    exact hI θ' i
  rw [hθ, Function.update_self]
  intro hagain
  cases move_of_step hs with
  | call hk hmove =>
    cases hmove with
    | inspectNone hp =>
      have hlock := (hok θ).parked.mpr ⟨_, hk, trivial⟩
      exact (parkInv_of_reachableUnder hc).parker_of_inspect hok hk hlock hp
    | @pop q hq =>
      have hnot := (afterPop_target c.shared.n q).2.1 i
      rw [Option.some.inj hagain] at hnot
      exact hnot rfl
    | @release j again => cases again <;> cases hagain
    | _ => cases hagain
  | enter => cases hagain
  | worker hk hmove =>
    rcases hmove.call_eq rfl hk with h | ⟨⟨t, h⟩, -⟩
    · cases h.symm.trans hagain
    · cases h.symm.trans hagain

/-- How far a `pop()` is from its return. -/
def popLeft : SyncSlotMap.PopPc → ℕ
  | .start => 9
  | .skipStub _ => 8
  | .loadNext _ => 7
  | .loadHead _ => 6
  | .pushStub _ pc => 2 + pushLeft (some pc)
  | .reload _ => 2
  | .advance _ _ | .finish _ _ => 1
  | .panicked => 0

theorem popLeft_test (mem : SyncSlotMap.Mem) (tail next : ℕ) :
    popLeft (mem.test tail next) ≤ 6 := by
  unfold SyncSlotMap.Mem.test
  split_ifs <;> simp [popLeft]

/-- `pop()` has no loop. -/
theorem popLeft_pop {cap head : ℕ} {mem mem' : SyncSlotMap.Mem} {pc pc' : SyncSlotMap.PopPc}
    (hpc : pc.InRange cap head) (h : mem.pop pc = (mem', .inl pc')) : popLeft pc' < popLeft pc := by
  have htest := popLeft_test mem
  cases pc with
  | start =>
    simp only [SyncSlotMap.Mem.pop] at h
    split at h
    · cases h
      simp [popLeft]
    · rename_i next _
      split_ifs at h
      · cases h
      · cases h
        simp [popLeft]
      · cases h
        exact (htest _ next).trans_lt (by simp [popLeft])
  | skipStub next =>
    cases h
    simp [popLeft]
  | loadNext tail =>
    simp only [SyncSlotMap.Mem.pop] at h
    split at h
    · cases h
      simp [popLeft]
    · rename_i next _
      cases h
      exact (htest tail next).trans_lt (by simp [popLeft])
  | advance tail next =>
    simp only [SyncSlotMap.Mem.pop] at h
    split_ifs at h
    · cases h
      simp [popLeft]
    · cases h
  | loadHead tail =>
    simp only [SyncSlotMap.Mem.pop] at h
    split_ifs at h
    · cases h
    · cases h
      simp [popLeft, pushLeft]
  | pushStub tail p =>
    have hlt : pushLeft (mem.push mem.cap p).2 < pushLeft (some p) := by
      refine pushLeft_push ?_
      rintro rfl
      exact hpc.2
    simp only [SyncSlotMap.Mem.pop] at h
    split at h
    · rename_i pc' hpush
      cases h
      rw [hpush] at hlt
      simpa [popLeft] using hlt
    · rename_i hpush
      cases h
      rw [hpush] at hlt
      simpa [popLeft] using Nat.zero_lt_of_lt hlt
  | reload tail =>
    simp only [SyncSlotMap.Mem.pop] at h
    repeat' split at h
    all_goals cases h
    all_goals simp [popLeft]
  | finish tail next => cases h
  | panicked => exact absurd hpc id

/-- How far a `schedule_global` is from its return, if it does not go round its loop again. -/
def Call.left (pc : Option SyncSlotMap.PopPc) : Call → ℕ
  | .push _ => 20
  | .tryLock => 19
  | .callPop => 18
  | .pop => 7 + pc.elim 0 popLeft
  | .lockParker _ => 6
  | .inspect _ => 5
  | .notify _ => 4
  | .wakeIo | .release _ false => 3
  | .unlock => 2
  | .release _ true | .panicked => 0

theorem Call.left_of_ne {k : Call} (hk : k ≠ .pop) (pc pc' : Option SyncSlotMap.PopPc) :
    k.left pc = k.left pc' := by
  cases k with
  | pop => exact absurd rfl hk
  | release i again => cases again <;> rfl
  | _ => rfl

/-- Where the `pop()` in progress stands. -/
def popPc (q : SyncSlotMap.State) : Option SyncSlotMap.PopPc := q.popping.map fun c ↦ c.pc

@[simp] theorem popPc_observe (q : SyncSlotMap.State) : popPc q.observe = popPc q := by
  unfold popPc SyncSlotMap.State.observe
  cases q.popping <;> rfl

theorem left_afterPop (hpop : q.popping = none) : (afterPop n q).left (popPc q) ≤ 6 := by
  unfold afterPop
  split
  · rename_i h
    cases hpop.symm.trans h
  · split_ifs <;> simp [Call.left]
  · simp [Call.left]

theorem left_pop (hR : SyncSlotMap.InRange n q) (h : SyncSlotMap.step q .popStep = some q') :
    (afterPop n q').left (popPc q') < Call.pop.left (popPc q) := by
  cases SyncSlotMap.move_of_step h with
  | @popGoOn c mem pc hc hpop =>
    have hlt := popLeft_pop (hR.pop c hc) hpop
    rw [afterPop_eq_pop.mpr (by simp [SyncSlotMap.State.observe])]
    simpa [Call.left, popPc, SyncSlotMap.State.observe, hc] using hlt
  | popReturn hc hpop =>
    refine (left_afterPop rfl).trans_lt ?_
    simp only [Call.left]
    omega

/-- A call comes nearer to its return with each of its steps, except where it finds an unset
parker. -/
theorem CallMove.left {k k' : Call} (hn : m.n = n) (hR : SyncSlotMap.InRange n m.parkedWorkers)
    (h : CallMove θ m k m' (some k')) (hk : ∀ i, k ≠ .release i true)
    (hk' : ∀ i, k' ≠ .release i true) :
    k'.left (popPc m'.parkedWorkers) < k.left (popPc m.parkedWorkers) := by
  cases h with
  | pop hq =>
    rw [hn]
    exact left_pop hR hq
  | callPop hq =>
    cases SyncSlotMap.move_of_step hq with
    | pop hp => simp [Call.left, popPc, SyncSlotMap.State.observe, popLeft]
  | inspectNone => exact absurd rfl (hk' _)
  | @release i again =>
    cases again with
    | true => exact absurd rfl (hk i)
    | false => simp [Call.left]
  | _ => simp [Call.left]

/-- A step of another thread leaves the `pop()` of a scheduler where it is. -/
theorem Move.popPc_of_ne (hok : ∀ θ, Ok n θ c.shared (c.pc θ)) (hk : (c.pc θ).call = some .pop)
    (h : Move θ' c.shared (c.pc θ') a m' ℓ') (hθ : θ' ≠ θ) :
    popPc m'.parkedWorkers = popPc c.shared.parkedWorkers := by
  have hlock := (hok θ).parked.mpr ⟨_, hk, trivial⟩
  have hnot {k : Call} (hk' : (c.pc θ').call = some k) : ¬k.holdsParked := fun hheld ↦
    hθ (Option.some.inj (((hok θ').parked.mpr ⟨k, hk', hheld⟩).symm.trans hlock))
  cases h with
  | call hk' hmove =>
    cases hmove with
    | callPop | pop => exact absurd trivial (hnot hk')
    | _ => rfl
  | enter => rfl
  | @worker j _ _ _ _ _ _ hmove =>
    generalize (c.pc (.worker j)).base = b at hmove
    cases hmove with
    | push hp hq =>
      cases SyncSlotMap.move_of_step hq with
      | push => exact popPc_observe _
    | pushStep hq =>
      cases SyncSlotMap.move_of_step hq with
      | pushStep => exact popPc_observe _
    | _ => rfl

/-- How far the call of a thread is from its return. -/
def callLeft (θ : Thread) (c : State) : ℕ :=
  (c.pc θ).call.elim 0 fun k ↦ k.left (popPc c.shared.parkedWorkers)

theorem callLeft_of_ne (hok : ∀ θ, Ok n θ c.shared (c.pc θ))
    (h : Move θ' c.shared (c.pc θ') a m' ℓ') (hθ : θ' ≠ θ) :
    callLeft θ ⟨m', Function.update c.pc θ' ℓ'⟩ = callLeft θ c := by
  simp only [callLeft, Function.update_of_ne (Ne.symm hθ)]
  cases hk : (c.pc θ).call with
  | none => rfl
  | some k =>
    by_cases hpop : k = .pop
    · subst hpop
      rw [h.popPc_of_ne hok hk hθ]
    · exact Call.left_of_ne hpop _ _

theorem served_call (hfair : Fair r) : r.Served (takes θ) fun c ↦ (c.pc θ).call ≠ none := by
  intro k hcall
  obtain ⟨l, a, m, ℓ, hl, hpc, hact, hmove, -⟩ := exists_step hfair rfl (Or.inl (hcall k le_rfl))
  refine ⟨l, (θ, a), hl, ?_, hact⟩
  have hne := hcall k le_rfl
  cases hmove with
  | call => rfl
  | enter h => exact absurd h hne
  | worker h => exact absurd h hne

/-- A step of any thread while `θ` is in a call: the call is over, or has come nearer to its end, or
another thread has moved. -/
theorem callLeft_step {d : State} {x : Thread × Label}
    (hc : (machine n capacity).ReachableUnder ResumesCleared c) (hG : ResumesCleared c x)
    (hcd : (machine n capacity).step c x = some d) (hcall : (c.pc θ).call ≠ none) :
    (d.pc θ).call = none ∨ (d.pc θ).call ≠ none ∧ callLeft θ d < callLeft θ c ∨
      d.pc θ = c.pc θ ∧ callLeft θ d = callLeft θ c ∧ ¬takes θ x := by
  obtain ⟨hn, hok⟩ := ok_of_reachableUnder hc
  have hagain := call_ne_again (.step hc hG hcd) θ
  obtain ⟨θ', a⟩ := x
  obtain ⟨m, ℓ, hs, rfl⟩ := System.machine_step_eq_some.mp hcd
  have hmove : Move θ' c.shared (c.pc θ') a m ℓ := move_of_step hs
  by_cases hθ : θ' = θ
  · subst hθ
    cases hmove with
    | @call _ _ _ _ k k' hk hmove =>
      cases k' with
      | none => exact Or.inl (by simp)
      | some k' =>
        refine Or.inr (Or.inl ⟨by simp, ?_⟩)
        have hlt := hmove.left hn (inRange_of_reachableUnder hc)
          (fun i h ↦ call_ne_again hc _ i (hk.trans (congrArg some h)))
          fun i h ↦ hagain i (by simp [h])
        simpa [callLeft, hk] using hlt
    | enter h => exact absurd h hcall
    | worker h => exact absurd h hcall
  · refine Or.inr (Or.inr ⟨by simp [Ne.symm hθ], ?_, fun ha ↦ hθ (Prod.mk.inj ha).1⟩)
    exact callLeft_of_ne hok hmove hθ

theorem leadsTo_call_none (hobeys : r.Obeys ResumesCleared) (hfair : Fair r) (θ : Thread) :
    r.LeadsTo (fun c ↦ (c.pc θ).call ≠ none) fun c ↦ (c.pc θ).call = none := by
  refine (served_call hfair).leadsTo_of_obeys hobeys (callLeft θ) fun c a d hc hcall hG hcd ↦ ?_
  rcases callLeft_step hc hG hcd hcall with hnone | ⟨hne, hlt⟩ | ⟨hpc, heq, hnot⟩
  · exact Or.inl hnone
  · exact Or.inr ⟨hne, Or.inl hlt⟩
  · exact Or.inr ⟨by rwa [hpc], Or.inr ⟨heq, hnot⟩⟩

theorem Move.parkedLock (h : Move θ m ℓ a m' ℓ') :
    m'.parkedLock = m.parkedLock ∨ m'.parkedLock = none ∨ m.parkedLock = none := by
  cases h with
  | call hk hmove =>
    cases hmove with
    | lock h => exact Or.inr (Or.inr h)
    | unlock => exact Or.inr (Or.inl rfl)
    | _ => exact Or.inl rfl
  | enter => exact Or.inl rfl
  | worker hk hmove => exact Or.inl hmove.parkedLock_eq

theorem leadsTo_parked_unlocked_of_lock (hobeys : r.Obeys ResumesCleared) (hfair : Fair r) :
    r.LeadsTo (fun c ↦ c.shared.parkedLock = some θ) fun c ↦ c.shared.parkedLock = none := by
  have hcall {G : State → Thread × Label → Prop} {c : State}
      (hc : (machine n capacity).ReachableUnder G c) (hlock : c.shared.parkedLock = some θ) :
      (c.pc θ).call ≠ none := by
    obtain ⟨k, hk, -⟩ := ((ok_of_reachableUnder hc).2 θ).parked.mp hlock
    simp [hk]
  have hserved : r.Served (takes θ) fun c ↦ c.shared.parkedLock = some θ := fun k hk ↦
    served_call hfair k fun l hl ↦ hcall (r.reachable l) (hk l hl)
  refine hserved.leadsTo_of_obeys hobeys (callLeft θ) fun c a d hc hlock hG hcd ↦ ?_
  have hkept : d.shared.parkedLock = some θ ∨ d.shared.parkedLock = none := by
    obtain ⟨m, ℓ, hs, rfl⟩ := System.machine_step_eq_some.mp hcd
    rcases (move_of_step hs).parkedLock with h | h | h
    · exact Or.inl (h.trans hlock)
    · exact Or.inr h
    · cases h.symm.trans hlock
  rcases hkept with hkept | hfree
  swap
  · exact Or.inl hfree
  refine Or.inr ⟨hkept, ?_⟩
  rcases callLeft_step hc hG hcd (hcall hc hlock) with hnone | ⟨-, hlt⟩ | ⟨-, heq, hnot⟩
  · exact absurd hnone (hcall (.step hc hG hcd) hkept)
  · exact Or.inl hlt
  · exact Or.inr ⟨heq, hnot⟩

theorem leadsTo_parked_unlocked (hobeys : r.Obeys ResumesCleared) (hfair : Fair r) :
    r.LeadsTo (fun _ ↦ True) fun c ↦ c.shared.parkedLock = none := by
  intro k _
  cases hlock : (r.state k).shared.parkedLock with
  | none => exact ⟨k, le_rfl, hlock⟩
  | some θ => exact leadsTo_parked_unlocked_of_lock hobeys hfair k hlock

/-- **`schedule_global` returns**, in every fair run that keeps to the parking protocol, and no lock
is held for good. -/
theorem scheduleGlobal_returns (r : (machine n capacity).Run) (hobeys : r.Obeys ResumesCleared)
    (hfair : Fair r) :
    (∀ θ, r.LeadsTo (fun c ↦ (c.pc θ).call ≠ none) fun c ↦ (c.pc θ).call = none) ∧
      r.LeadsTo (fun _ ↦ True) (fun c ↦ c.shared.parkedLock = none) ∧
      ∀ i, r.LeadsTo (fun _ ↦ True) fun c ↦ c.shared.parkerLock i = none :=
  ⟨leadsTo_call_none hobeys hfair, leadsTo_parked_unlocked hobeys hfair, leadsTo_unlocked hfair⟩

/-- The way to `parksAgain`. -/
def parkTwice : List (Thread × Label) :=
  steps 0 3 ++ steps 1 10 ++ (.other 0, .scheduleGlobal 0) :: List.replicate 17 (.other 0, .step) ++
    steps 1 17

theorem exec_parkTwice : (machine 2 32).exec (.new 2 32) parkTwice = some parksAgain :=
  (Option.some_get _).symm

theorem init_new : (machine n capacity).init (.new n capacity) := rfl

/-- It rests there: worker 0 polls and worker 1 is parked. -/
def parksAgainRun : (machine 2 32).Run := .ofExec init_new exec_parkTwice

theorem step_parksAgain (θ : Thread) :
    step θ parksAgain.shared (parksAgain.pc θ) .step = none := by
  refine System.forall_pc_of_exec (Q := fun θ ℓ ↦ step θ parksAgain.shared ℓ .step = none)
    exec_parkTwice (fun θ hθ ↦ ?_) (by decide) θ
  cases θ with
  | worker i =>
    have hi : ¬i < 2 := by
      intro hi
      obtain rfl | rfl : i = 0 ∨ i = 1 := by omega
      · exact hθ (by decide)
      · exact hθ (by decide)
    simp [State.new, Local.new, hi, step, workerStep]
  | other k => rfl

theorem fair_parksAgainRun : Fair parksAgainRun := by
  refine fun θ ↦ stronglyFair_ofExec init_new exec_parkTwice ?_
  rintro ⟨x, d, rfl, hcd⟩
  obtain ⟨m, ℓ, hs, -⟩ := System.machine_step_eq_some.mp hcd
  cases (step_parksAgain θ).symm.trans hs

theorem scheduleGlobal_returns_parksAgain :
    ((parksAgainRun.state 15).pc (.other 0)).call = some .tryLock ∧
      (∀ θ, parksAgainRun.LeadsTo (fun c ↦ (c.pc θ).call ≠ none) fun c ↦ (c.pc θ).call = none) ∧
      parksAgainRun.LeadsTo (fun _ ↦ True) (fun c ↦ c.shared.parkedLock = none) ∧
      ∀ i, parksAgainRun.LeadsTo (fun _ ↦ True) fun c ↦ c.shared.parkerLock i = none :=
  ⟨by decide, scheduleGlobal_returns parksAgainRun
    (obeys_ofExec init_new exec_parkTwice (by decide)) fair_parksAgainRun⟩

end ArcDischarge.Runtime
