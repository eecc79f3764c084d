import ArcDischarge.Runtime.Rounds

/-!
# Every scheduled task is run

The invariant `Carried` says who is going to act on a global queue that is not empty: a
`schedule_global` that has its wake-up before it, a mio wake that is pending, or a worker that will
look. In a fair run each of them does act. A call that has the lock of `parked_workers` wakes a
worker or the driver; one that has not got it yet gets it, or another one does; a pending wake ends
a poll; and a worker that will look does look. So the global queue is emptied from its front, four
tasks at a time, again and again, and each task comes to a worker that runs it.

The conditions are those under which the code is right at all (`WakeInForce`, `ResumesCleared`), and
that no worker starves the global queue by an overlong local one (`Uncrowded`).
-/

namespace ArcDischarge.Runtime

open Machine Run

variable {n i t capacity : ℕ} {θ : Thread} {m m' : Shared} {ℓ ℓ' : Local} {a : Label} {c : State}
  {r : (machine n capacity).Run}

/-- What is asked of every step of a run. -/
def Regular (n : ℕ) (c : State) (x : Thread × Label) : Prop :=
  WakeInForce n c x ∧ ResumesCleared c x ∧ Uncrowded c x

/-! ## A worker that will look does look -/

theorem leadsTo_base (hfair : Fair r) {b q : Base} (hb : ¬b.mayCall) (hpolling : b ≠ .polling)
    (hwaiting : b ≠ .waiting) (hnext : ∀ m ℓ a m' ℓ', WorkerMove i m ℓ b a m' ℓ' → ℓ'.base = q) :
    r.LeadsTo (fun c ↦ (c.pc (.worker i)).base = b) fun c ↦ (c.pc (.worker i)).base = q := by
  intro k hk
  obtain ⟨l, a, m, ℓ, hl, -, -, hmove, hd⟩ := exists_loopStep hfair hk hb hpolling hwaiting
  exact ⟨l + 1, hl.trans (Nat.le_succ l), by simp [hd, hnext _ _ _ _ _ hmove]⟩

/-- A notification does not get lost. -/
theorem notified_of_step {x : Thread × Label} {d : State}
    (hcd : (machine n capacity).step c x = some d) (hd : d.pc (.worker i) = c.pc (.worker i))
    (hb : (c.pc (.worker i)).base = .waiting) (hnotified : c.shared.unparker i = .notified) :
    d.shared.unparker i = .notified := by
  obtain ⟨θ, a⟩ := x
  obtain ⟨m, ℓ, hs, rfl⟩ := System.machine_step_eq_some.mp hcd
  have hmove : Move θ c.shared (c.pc θ) a m ℓ := move_of_step hs
  cases hmove with
  | call hk hmove => exact hmove.unparker_notified hnotified
  | enter => exact hnotified
  | @worker j _ _ _ _ _ hk hmove =>
    by_cases hij : i = j
    · subst hij
      have hbase : ℓ.base = .relock := hmove.frame.2.2.1 hb
      simp only [Function.update_self] at hd
      rw [hd, hb] at hbase
      cases hbase
    · exact (hmove.unparker_of_ne hij).trans hnotified

theorem leadsTo_relock (hfair : Fair r) : r.LeadsTo (fun c ↦ (c.pc (.worker i)).base = .waiting ∧
    c.shared.unparker i = .notified) fun c ↦ (c.pc (.worker i)).base = .relock := by
  rintro k ⟨hbase, hnotified⟩
  have hserved (hstays : ∀ l, k ≤ l →
      (r.state l).pc (.worker i) = (r.state k).pc (.worker i)) :
      ∃ l x, k ≤ l ∧ takes (.worker i) x ∧ r.act l = some x := by
    have hkeeps (l : ℕ) (hl : k ≤ l) : (r.state l).shared.unparker i = .notified := by
      refine r.keeps (I := fun c ↦ c.shared.unparker i = .notified) hl hnotified ?_
      intro l x hl _ hnext h
      have hl' := hstays l hl
      refine notified_of_step hnext ?_ (hl' ▸ hbase) h
      rw [hl', hstays (l + 1) (hl.trans (Nat.le_succ l))]
    refine (hfair (.worker i)).weaklyFair k fun l hl ↦ ?_
    have hbase' : ((r.state l).pc (.worker i)).base = .waiting := by rw [hstays l hl, hbase]
    have hok := (ok_of_reachableUnder (r.reachable l)).2 (.worker i)
    obtain ⟨j, hj, hij⟩ := hok.worker.mp (by simp [hbase'])
    cases hij
    have hcall : ((r.state l).pc (.worker i)).call = none := by
      by_contra hne
      obtain ⟨p, hp⟩ := Option.ne_none_iff_exists'.mp hne
      have hmay := (hok.call p hp).1
      rw [hbase'] at hmay
      exact hmay
    refine enabled_worker (r.reachable l) hj hcall ?_ ?_
    · rintro (h | ⟨-, h⟩)
      · cases hbase'.symm.trans h
      · exact h (hkeeps l hl)
    · rintro (h | ⟨-, -, h | h⟩)
      · cases hcall.symm.trans h
      · cases hbase'.symm.trans h
      · cases hbase'.symm.trans h
  obtain ⟨l, a, m, ℓ, hl, hpc, -, hs, hd⟩ := System.exists_turn rfl (fun x hx ↦ by rw [hx]) hserved
  refine ⟨l + 1, hl.trans (Nat.le_succ l), ?_⟩
  rw [hd]
  simp only [Function.update_self]
  cases move_of_step hs with
  | call hk =>
    have hmay := ((ok_of_reachableUnder (r.reachable k)).2 (.worker i)).call _ hk
    rw [hbase] at hmay
    exact absurd hmay.1 id
  | worker hk hmove => exact hmove.frame.2.2.1 hbase

theorem leadsTo_getGlobal (hobeys : r.Obeys (Regular n)) (henv : Environment r) :
    r.LeadsTo (fun c ↦ WillLook c i) fun c ↦ (c.pc (.worker i)).base = .getGlobal := by
  have hfair := henv.fair
  have htop : r.LeadsTo (fun c ↦ (c.pc (.worker i)).base = .top) fun c ↦
      (c.pc (.worker i)).base = .getGlobal := fun k hk ↦
    leadsTo_getGlobal_of_top (fun l x hx ↦ (hobeys l x hx).2) henv _ k ⟨hk, rfl⟩
  have hrelease := (leadsTo_base hfair (i := i) (b := .release) (q := .top) id (by simp) (by simp)
    (by rintro _ _ _ _ _ ⟨⟩; rfl)).trans htop
  have hunpark := (leadsTo_base hfair (i := i) (b := .unpark) (q := .release) id (by simp)
    (by simp) (by rintro _ _ _ _ _ ⟨⟩; rfl)).trans hrelease
  have hrelock := (leadsTo_base hfair (i := i) (b := .relock) (q := .unpark) id (by simp)
    (by simp) (by rintro _ _ _ _ _ ⟨⟩; rfl)).trans hunpark
  have hunlock := (leadsTo_base hfair (i := i) (b := .unlockIo) (q := .top) id (by simp) (by simp)
    (by rintro _ _ _ _ _ ⟨⟩; rfl)).trans htop
  have huser {b : Base} (hb : b.inUser) : r.LeadsTo (fun c ↦ (c.pc (.worker i)).base = b) fun c ↦
      (c.pc (.worker i)).base = b.afterUser := fun k hk ↦ by
    obtain ⟨l, hl, hbase, -⟩ := leadsTo_afterUser (I := fun _ ↦ True)
      (fun l x hx ↦ (hobeys l x hx).2.1) henv hb (fun _ _ _ _ _ _ ↦ trivial) k ⟨hk, trivial⟩
    exact ⟨l, hl, hbase⟩
  rintro k (hlook | hnotified)
  · cases hb : ((r.state k).pc (.worker i)).base with
    | top => exact htop k hb
    | getGlobal => exact ⟨k, le_rfl, hb⟩
    | running t => exact (huser (b := .running t) trivial).trans htop k hb
    | events => exact (huser (b := .events) trivial).trans hunlock k hb
    | unlockIo => exact hunlock k hb
    | relock => exact hrelock k hb
    | unpark => exact hunpark k hb
    | release => exact hrelease k hb
    | _ =>
      rw [hb] at hlook
      exact absurd hlook id
  · exact (leadsTo_relock hfair).trans hrelock k hnotified

/-! ## Somebody wakes a worker -/

/-- Some worker will look at the global queue. -/
def SomeLooks (n : ℕ) (c : State) : Prop := ∃ i < n, WillLook c i

/-- A pending wake is delivered to a poll, or not needed. -/
theorem Move.wakePending (h : Move θ m ℓ a m' ℓ') (hwake : m.wakePending = true) :
    m'.wakePending = true ∨ ∃ i, θ = .worker i ∧ ℓ'.base = .events := by
  cases h with
  | call hk hmove =>
    left
    cases hmove <;> first | exact hwake | rfl
  | enter => exact Or.inl hwake
  | @worker i _ _ _ _ _ hk hmove =>
    rcases hmove.frame.2.1 with h | h
    · exact Or.inl (h.trans hwake)
    · exact Or.inr ⟨i, rfl, h⟩

theorem SomeLooks.of_base (hc : (machine n capacity).Reachable c)
    (hlook : (c.pc (.worker i)).base.willLook) : SomeLooks n c := by
  have hbase : (c.pc (.worker i)).base ≠ .outside := by
    intro h
    rw [h] at hlook
    exact hlook
  obtain ⟨j, hj, hij⟩ := ((ok_of_reachableUnder hc).2 (.worker i)).worker.mp hbase
  cases hij
  exact ⟨i, hj, Or.inl hlook⟩

/-- A wake stays pending as long as no worker is about to look. -/
theorem pending_of_not_looks {k l : ℕ} (hnot : ∀ l, k ≤ l → ¬SomeLooks n (r.state l))
    (hwake : (r.state k).shared.wakePending = true) (hl : k ≤ l) :
    (r.state l).shared.wakePending = true := by
  refine r.keeps (I := fun c ↦ c.shared.wakePending = true) hl hwake fun l x hl _ hnext h ↦ ?_
  obtain ⟨m, ℓ, hs, hd⟩ := System.machine_step_eq_some.mp hnext
  have hmove : Move x.1 (r.state l).shared ((r.state l).pc x.1) x.2 m ℓ := move_of_step hs
  rcases hmove.wakePending h with h | ⟨i, hi, hbase⟩
  · rw [hd]
    exact h
  · refine absurd (SomeLooks.of_base (i := i) (r.reachable (l + 1)) ?_)
      (hnot (l + 1) (hl.trans (Nat.le_succ l)))
    rw [hd, hi]
    simp [hbase, Base.willLook]

/-- As long as no worker is about to look, one polls, or comes to poll. -/
theorem exists_polling_of_not_looks {k : ℕ} (hn : 1 ≤ n) (hfair : Fair r)
    (hnot : ∀ l, k ≤ l → ¬SomeLooks n (r.state l)) :
    ∃ l i, k ≤ l ∧ ((r.state l).pc (.worker i)).base = .polling := by
  have hbase {l : ℕ} (hl : k ≤ l) (i : ℕ) : ¬((r.state l).pc (.worker i)).base.willLook :=
    fun hlook ↦ hnot l hl (.of_base (r.reachable l) hlook)
  obtain ⟨i, -, hawake⟩ := exists_awake_of_reachable hn (r.reachable k)
  have hi := hbase le_rfl i
  cases hb : ((r.state k).pc (.worker i)).base with
  | polling => exact ⟨k, i, le_rfl, hb⟩
  | tryLockIo =>
    obtain ⟨l, a, m, ℓ, hl, -, -, hmove, hd⟩ :=
      exists_loopStep hfair hb (by simp [Base.mayCall]) (by simp) (by simp)
    cases hmove with
    | lockIo => exact ⟨l + 1, i, hl.trans (Nat.le_succ l), by simp [hd]⟩
    | @noIo θ hio =>
      -- whoever has the driver polls it
      have hok := (ok_of_reachableUnder (r.reachable l)).2 θ
      have hholds := hok.io.mp hio
      obtain ⟨j, -, rfl⟩ := hok.worker.mp fun h ↦ by simp [h, Base.holdsIo] at hholds
      have hj := hbase hl j
      refine ⟨l, j, hl, ?_⟩
      generalize ((r.state l).pc (.worker j)).base = b at hholds hj
      cases b <;> first | rfl | exact absurd hholds id | exact absurd trivial hj
  | _ =>
    rw [hb] at hawake hi
    first | exact absurd hawake id | exact absurd trivial hi

theorem leadsTo_looks_of_pending (hn : 1 ≤ n) (henv : Environment r) :
    r.LeadsTo (fun c ↦ c.shared.wakePending = true) (SomeLooks n) := by
  intro k hwake
  by_contra hnot
  push Not at hnot
  obtain ⟨l, i, hl, hbase⟩ := exists_polling_of_not_looks hn henv.fair hnot
  -- the poll returns
  obtain ⟨l', a, m, ℓ, hl', -, -, hs, hd⟩ := System.exists_turn (n := l) rfl
    (fun x hx ↦ by obtain ⟨-, rfl⟩ := hx; rfl) fun hstays ↦ henv.wakes i l fun l' hl' ↦
      ⟨by rw [hstays l' hl', hbase], pending_of_not_looks hnot hwake (hl.trans hl')⟩
  refine hnot (l' + 1) ((hl.trans hl').trans (Nat.le_succ l'))
    (.of_base (i := i) (r.reachable (l' + 1)) ?_)
  have hmove : Move (.worker i) _ _ a m ℓ := move_of_step hs
  rw [hd]
  simp only [Function.update_self]
  cases hmove with
  | call hk =>
    have hmay := ((ok_of_reachableUnder (r.reachable l)).2 (.worker i)).call _ hk
    rw [hbase] at hmay
    exact absurd hmay.1 id
  | worker hk hmove =>
    rw [hbase] at hmove
    cases hmove
    trivial

theorem CallMove.holdsParked {k k' : Call} (h : CallMove θ m k m' (some k'))
    (hk : k.holdsParked) : k'.holdsParked := by
  cases h with
  | pop => exact (afterPop_target _ _).1
  | @release i again => cases again <;> trivial
  | push => exact absurd hk id
  | _ => trivial

/-- The thread has the lock of `parked_workers`, and has its wake-up before it. -/
def Wakes (c : State) (θ : Thread) : Prop :=
  ∃ p, (c.pc θ).call = some p ∧ p.beforeWake ∧ p.holdsParked

theorem Wakes.step {x : Thread × Label} {d : State} (hc : (machine n capacity).Reachable c)
    (h : Wakes c θ) (hcd : (machine n capacity).step c x = some d) :
    Wakes d θ ∨ SomeLooks n d ∨ d.shared.wakePending = true := by
  obtain ⟨hn, hok⟩ := ok_of_reachableUnder hc
  obtain ⟨p, hp, hbefore, hheld⟩ := h
  obtain ⟨θ', a⟩ := x
  obtain ⟨m, ℓ, hs, rfl⟩ := System.machine_step_eq_some.mp hcd
  have hmove : Move θ' c.shared (c.pc θ') a m ℓ := move_of_step hs
  by_cases hθ : θ = θ'
  · subst hθ
    cases hmove with
    | @call _ _ _ _ k k' hk hmove =>
      obtain rfl : k = p := Option.some.inj (hk.symm.trans hp)
      rcases hmove.beforeWake (inRange_of_reachableUnder hc) hn hbefore with
        ⟨p', rfl, hp'⟩ | ⟨i, rfl⟩ | hwake | ⟨rfl, -⟩
      · exact Or.inl ⟨p', by simp, hp', hmove.holdsParked hheld⟩
      · have hi := ((hok θ).call _ hk).2 i rfl
        exact Or.inr (Or.inl ⟨i, hi, willLook_of_notify hc hk hmove⟩)
      · exact Or.inr (Or.inr hwake)
      · exact absurd hheld id
    | enter hk => cases hk.symm.trans hp
    | worker hk => cases hk.symm.trans hp
  · exact Or.inl ⟨p, by simpa [hθ] using hp, hbefore, hheld⟩

theorem leadsTo_looks_of_wakes (hn : 1 ≤ n) (hobeys : r.Obeys ResumesCleared)
    (henv : Environment r) : r.LeadsTo (fun c ↦ Wakes c θ) (SomeLooks n) := by
  intro k hk
  by_contra hnot
  push Not at hnot
  have hkeeps {l : ℕ} (hl : k ≤ l) : Wakes (r.state l) θ := by
    refine r.keeps (I := fun c ↦ Wakes c θ) hl hk fun l x hl _ hnext h ↦ ?_
    rcases h.step (r.reachable l) hnext with h | h | h
    · exact h
    · exact absurd h (hnot _ (hl.trans (Nat.le_succ l)))
    · obtain ⟨l', hl', hlooks⟩ := leadsTo_looks_of_pending hn henv (l + 1) h
      exact absurd hlooks (hnot l' (by omega))
  obtain ⟨p, hp, -⟩ := hk
  obtain ⟨l, hl, hnone⟩ := leadsTo_call_none hobeys henv.fair θ k (by simp [hp])
  obtain ⟨p', hp', -⟩ := hkeeps hl
  cases hnone.symm.trans hp'

/-- Who takes the lock of `parked_workers` is going to wake. -/
theorem Move.parkedLock_of_free (h : Move θ m ℓ a m' ℓ') (hfree : m.parkedLock = none) :
    m'.parkedLock = none ∨ ℓ'.call = some .callPop := by
  cases h with
  | call hk hmove =>
    cases hmove with
    | lock => exact Or.inr rfl
    | unlock => exact Or.inl rfl
    | _ => exact Or.inl hfree
  | enter => exact Or.inl hfree
  | worker hk hmove => exact Or.inl (hmove.parkedLock_eq.trans hfree)

/-- **A global queue that is not empty gets a worker to look at it.** -/
theorem exists_looks {k : ℕ} (hn : 1 ≤ n) (hobeys : r.Obeys (Regular n)) (henv : Environment r)
    (hqueue : ∀ l, k ≤ l → (r.state l).shared.globalQueue ≠ []) :
    ∃ l, k ≤ l ∧ SomeLooks n (r.state l) := by
  by_contra hnot
  push Not at hnot
  have hresumes : r.Obeys ResumesCleared := fun l x hx ↦ (hobeys l x hx).2.1
  have hforce : r.Obeys (WakeInForce n) := fun l x hx ↦ (hobeys l x hx).1
  have hnotWakes {l : ℕ} (hl : k ≤ l) (θ : Thread) : ¬Wakes (r.state l) θ := fun h ↦ by
    obtain ⟨l', hl', hlooks⟩ := leadsTo_looks_of_wakes hn hresumes henv l h
    exact hnot l' (hl.trans hl') hlooks
  -- so whoever is responsible has not got the lock of `parked_workers` yet
  have htries {l : ℕ} (hl : k ≤ l) : ∃ θ, ((r.state l).pc θ).call = some .tryLock := by
    rcases carried_of_reachableUnder (hforce.reachable l) with h | ⟨θ, p, hp, hbefore⟩ | h | h
    · exact absurd h (hqueue l hl)
    · have hheld : ¬p.holdsParked := fun hheld ↦ hnotWakes hl θ ⟨p, hp, hbefore, hheld⟩
      refine ⟨θ, ?_⟩
      rw [hp]
      cases p <;> first | rfl | exact absurd trivial hheld | exact absurd hbefore id
    · obtain ⟨l', hl', hlooks⟩ := leadsTo_looks_of_pending hn henv l h
      exact absurd hlooks (hnot l' (hl.trans hl'))
    · exact absurd h (hnot l hl)
  -- the lock comes free, and stays so: whoever got it would wake a worker
  obtain ⟨l, hl, hfree⟩ := leadsTo_parked_unlocked hresumes henv.fair k trivial
  have hkeeps {l' : ℕ} (hl' : l ≤ l') : (r.state l').shared.parkedLock = none := by
    refine r.keeps (I := fun c ↦ c.shared.parkedLock = none) hl' hfree ?_
    rintro l' ⟨θ, a⟩ hl' - hnext h
    obtain ⟨m, ℓ, hs, hd⟩ := System.machine_step_eq_some.mp hnext
    have hwakes := hnotWakes (l := l' + 1) (by omega) θ
    rw [hd] at hwakes ⊢
    rcases (move_of_step hs).parkedLock_of_free h with h | h
    · exact h
    · exact absurd ⟨.callPop, by simp [h], trivial, trivial⟩ hwakes
  -- but then the one that is about to try gets it
  obtain ⟨θ, hθ⟩ := htries hl
  obtain ⟨l₁, a, m, ℓ, hl₁, -, -, hmove, hd⟩ := exists_step henv.fair (θ := θ) (k := l)
    rfl (Or.inl (by simp [hθ]))
  have hwakes := hnotWakes (l := l₁ + 1) (by omega) θ
  rw [hd] at hwakes
  cases hmove with
  | call hk hmove =>
    obtain rfl := Option.some.inj (hk.symm.trans hθ)
    cases hmove with
    | skip h => cases (hkeeps hl₁).symm.trans h
    | lock => exact hwakes ⟨.callPop, by simp, trivial, trivial⟩
  | enter hk => cases hk.symm.trans hθ
  | worker hk => cases hk.symm.trans hθ

/-! ## The tasks -/

/-- A look at the global queue takes a task, or one before it. -/
theorem getGlobal_taken {before after : List ℕ} (hq : m.globalQueue = before ++ t :: after) :
    ((getGlobal m ℓ).2.base = .running t ∨ t ∈ (getGlobal m ℓ).2.localQueue) ∨
      ∃ before', before'.length < before.length ∧
        m.globalQueue.drop 4 = before' ++ t :: after := by
  by_cases hlt : before.length < 4
  · left
    have hmem : t ∈ ℓ.localQueue ++ m.globalQueue.take 4 := by
      refine List.mem_append_right _ (List.mem_take_iff_getElem.mpr ⟨before.length, ?_, ?_⟩)
      · simp [hq, hlt]
      · simp [hq]
    unfold getGlobal
    cases hqueue : ℓ.localQueue ++ m.globalQueue.take 4 with
    | nil => simp [hqueue] at hmem
    | cons x rest =>
      rw [hqueue, List.mem_cons] at hmem
      exact hmem.imp (fun h ↦ by rw [h]) id
  · right
    refine ⟨before.drop 4, ?_, ?_⟩
    · rw [List.length_drop]
      omega
    · rw [hq, List.drop_append_of_le_length (not_lt.mp hlt)]

/-- The worker runs the task, or has it in its local queue. -/
def Local.has (ℓ : Local) (t : ℕ) : Prop := ℓ.base = .running t ∨ t ∈ ℓ.localQueue

/-- A task in the global queue comes to a worker, or stays with no more tasks before it. -/
theorem Move.globalQueue {before after : List ℕ} (h : Move θ m ℓ a m' ℓ')
    (hq : m.globalQueue = before ++ t :: after) : (∃ i, θ = .worker i ∧ ℓ'.has t) ∨
      ∃ before' after', m'.globalQueue = before' ++ t :: after' ∧
        before'.length ≤ before.length := by
  cases h with
  | call hk hmove =>
    right
    cases hmove with
    | push t' =>
      by_cases ht' : t' ∈ m.globalQueue
      · exact ⟨before, after, (if_pos ht').trans hq, le_rfl⟩
      · refine ⟨before, after ++ [t'], (if_neg ht').trans ?_, le_rfl⟩
        rw [hq]
        simp
    | _ => exact ⟨before, after, hq, le_rfl⟩
  | enter => exact Or.inr ⟨before, after, hq, le_rfl⟩
  | @worker i _ _ _ _ _ hk hmove =>
    generalize ℓ.base = b at hmove
    cases hmove with
    | getGlobal =>
      rcases getGlobal_taken (ℓ := ℓ) hq with h | ⟨before', hlt, hdrop⟩
      · exact Or.inl ⟨i, rfl, h⟩
      · exact Or.inr ⟨before', after, hdrop, hlt.le⟩
    | _ => exact Or.inr ⟨before, after, hq, le_rfl⟩

theorem leadsTo_taken (hn : 1 ≤ n) (hobeys : r.Obeys (Regular n)) (henv : Environment r) (t : ℕ) :
    r.LeadsTo (fun c ↦ t ∈ c.shared.globalQueue) fun c ↦ ∃ i, (c.pc (.worker i)).has t := by
  intro k hk
  obtain ⟨before, after, hq⟩ := List.mem_iff_append.mp hk
  induction hlength : before.length using Nat.strong_induction_on
    generalizing k before after with
  | _ length ih =>
    subst hlength
    by_contra hnot
    push Not at hnot
    have hstays {l : ℕ} (hl : k ≤ l) : ∃ before' after',
        (r.state l).shared.globalQueue = before' ++ t :: after' ∧
          before'.length ≤ before.length := by
      refine r.keeps (I := fun c ↦ ∃ before' after', c.shared.globalQueue = before' ++ t :: after' ∧
        before'.length ≤ before.length) hl ⟨before, after, hq, le_rfl⟩ ?_
      rintro l ⟨θ, a⟩ hl - hnext ⟨before', after', hq', hle⟩
      obtain ⟨m, ℓ, hs, hd⟩ := System.machine_step_eq_some.mp hnext
      have htaken := hnot (l + 1) (hl.trans (Nat.le_succ l))
      rw [hd] at htaken ⊢
      rcases (move_of_step hs).globalQueue hq' with ⟨i, rfl, h⟩ | ⟨before'', after'', hq'', hle'⟩
      · exact absurd (by simpa using h) (htaken i)
      · exact ⟨before'', after'', hq'', hle'.trans hle⟩
    have hqueue (l : ℕ) (hl : k ≤ l) : (r.state l).shared.globalQueue ≠ [] := by
      obtain ⟨before', after', hq', -⟩ := hstays hl
      simp [hq']
    -- a worker looks, and takes a task before this one
    obtain ⟨l, hl, i, -, hlook⟩ := exists_looks hn hobeys henv hqueue
    obtain ⟨l₁, hl₁, hget⟩ := leadsTo_getGlobal hobeys henv l hlook
    obtain ⟨l₂, a, m, ℓ, hl₂, -, hpc, hmove, hd⟩ :=
      exists_loopStep henv.fair hget (by simp [Base.mayCall]) (by simp) (by simp)
    obtain ⟨before', after', hq', hle⟩ := hstays ((hl.trans hl₁).trans hl₂)
    have hk₂ : k ≤ l₂ + 1 := by omega
    have htaken := hnot (l₂ + 1) hk₂ i
    cases hmove
    rcases getGlobal_taken (ℓ := (r.state l₁).pc (.worker i)) hq' with h | ⟨before'', hlt, hdrop⟩
    · rw [hd] at htaken
      exact htaken (by simpa [Local.has] using h)
    · have hnext : (r.state (l₂ + 1)).shared.globalQueue = before'' ++ t :: after' := by
        rw [hd]
        exact hdrop
      obtain ⟨l₃, hl₃, i, h⟩ := ih before''.length (hlt.trans_le hle) (l₂ + 1) (by simp [hnext])
        before'' after' hnext rfl
      exact hnot l₃ (hk₂.trans hl₃) i h

/-- The task has been handed to the scheduler and no worker has begun to run it. -/
def Scheduled (c : State) (t : ℕ) : Prop :=
  (∃ θ, (c.pc θ).call = some (.push t)) ∨ t ∈ c.shared.globalQueue ∨
    ∃ i, t ∈ (c.pc (.worker i)).localQueue

/-- **Every scheduled task is run**, wherever it has been put. -/
theorem runs_of_fair (hn : 1 ≤ n) (r : (machine n capacity).Run) (hobeys : r.Obeys (Regular n))
    (henv : Environment r) (t : ℕ) : r.LeadsTo (fun c ↦ Scheduled c t) fun c ↦
      ∃ i, i < n ∧ (c.pc (.worker i)).base = .running t := by
  have hlt {c : State} (hc : (machine n capacity).Reachable c) {i : ℕ}
      (hb : (c.pc (.worker i)).base = .running t) : i < n := by
    obtain ⟨j, hj, hij⟩ := ((ok_of_reachableUnder hc).2 (.worker i)).worker.mp (by simp [hb])
    exact Thread.worker.inj hij ▸ hj
  have hlocal {k i : ℕ} (h : ((r.state k).pc (.worker i)).has t) :
      ∃ l, k ≤ l ∧ ∃ i, i < n ∧ ((r.state l).pc (.worker i)).base = .running t := by
    rcases h with h | h
    · exact ⟨k, le_rfl, i, hlt (r.reachable k) h, h⟩
    · obtain ⟨l, hl, hb⟩ :=
        leadsTo_running_of_local (fun l x hx ↦ (hobeys l x hx).2.1) henv t k h
      exact ⟨l, hl, i, hlt (r.reachable l) hb, hb⟩
  have hglobal {k : ℕ} (h : t ∈ (r.state k).shared.globalQueue) :
      ∃ l, k ≤ l ∧ ∃ i, i < n ∧ ((r.state l).pc (.worker i)).base = .running t := by
    obtain ⟨l, hl, i, hhas⟩ := leadsTo_taken hn hobeys henv t k h
    obtain ⟨l', hl', hrunning⟩ := hlocal hhas
    exact ⟨l', hl.trans hl', hrunning⟩
  rintro k (⟨θ, hθ⟩ | h | ⟨i, h⟩)
  · obtain ⟨l, a, m, ℓ, hl, -, -, hmove, hd⟩ := exists_step henv.fair (θ := θ) (k := k) rfl
      (Or.inl (by simp [hθ]))
    have hpushed : t ∈ (r.state (l + 1)).shared.globalQueue := by
      rw [hd]
      cases hmove with
      | call hk hmove =>
        obtain rfl := Option.some.inj (hk.symm.trans hθ)
        cases hmove
        dsimp only
        split_ifs with hmem
        · exact hmem
        · simp
      | enter hk => cases hk.symm.trans hθ
      | worker hk => cases hk.symm.trans hθ
    obtain ⟨l', hl', hrunning⟩ := hglobal hpushed
    exact ⟨l', by omega, hrunning⟩
  · exact hglobal h
  · exact hlocal (Or.inr h)

theorem environment_parksAgainRun : Environment parksAgainRun where
  fair := fair_parksAgainRun
  ends i k h := by
    have hbase := h (max k parkTwice.length) (le_max_left _ _)
    rw [parksAgainRun, ofExec_state init_new exec_parkTwice (le_max_right _ _)] at hbase
    refine absurd hbase (System.forall_pc_of_exec (Q := fun _ ℓ ↦ ¬ℓ.base.inUser) exec_parkTwice
      (fun θ _ ↦ ?_) ?_ (.worker i))
    · cases θ with
      | worker j => by_cases hj : j < 2 <;> simp [State.new, Local.new, hj, Base.inUser]
      | other j => exact id
    · have hrest : ∀ x ∈ parkTwice, (parksAgain.pc x.1).base = .polling ∨
          (parksAgain.pc x.1).base = .waiting ∨ (parksAgain.pc x.1).base = .outside := by
        decide
      intro x hx
      rcases hrest x hx with h | h | h <;> rw [h] <;> exact id
  wakes i k h := by
    have hwake := (h (max k parkTwice.length) (le_max_left _ _)).2
    rw [parksAgainRun, ofExec_state init_new exec_parkTwice (le_max_right _ _)] at hwake
    exact absurd hwake (by decide)

/-- No `try_lock` fails in this run, so the wake-ups are in force. -/
theorem regular_parksAgainRun : parksAgainRun.Obeys (Regular 2) := by
  have halong : (machine 2 32).Along
      (fun c x ↦ HolderWakesIo c x ∧ ResumesCleared c x ∧ Uncrowded c x) (.new 2 32) parkTwice := by
    decide
  exact obeys_ofExec init_new exec_parkTwice
    (halong.mono fun c x hc ↦ hc.imp HolderWakesIo.wakeInForce id)

theorem runs_parksAgainRun : (parksAgainRun.state 15).shared.globalQueue = [0] ∧
    parksAgainRun.LeadsTo (fun c ↦ Scheduled c 0) fun c ↦
      ∃ i, i < 2 ∧ (c.pc (.worker i)).base = .running 0 :=
  ⟨by decide, runs_of_fair (by decide) parksAgainRun regular_parksAgainRun
    environment_parksAgainRun 0⟩

end ArcDischarge.Runtime
