import ArcDischarge.Runtime.Returns

/-!
# The rounds of a worker

A worker takes the front of its local queue in every round of its loop, whether or not it looks at
the global queue in that round. So what is in a local queue is run, if user code returns. And within
31 rounds the worker comes to look at the global queue, unless it finds its local queue crowded
where it should have looked: then it goes on with the local queue for another 31 rounds.
-/

namespace ArcDischarge.Runtime

open Machine Run

variable {n i t capacity : ℕ} {m m' : Shared} {ℓ ℓ' : Local} {a : Label} {c : State}
  {r : (machine n capacity).Run}

/-- User code runs: a task, or the wakers for the events of a poll. -/
def Base.inUser : Base → Prop
  | .running _ | .events => True
  | _ => False

/-- Where the worker goes on when user code returns. -/
def Base.afterUser : Base → Base
  | .events => .unlockIo
  | _ => .top

/-- What is assumed of the environment of a run. -/
structure Environment (r : (machine n capacity).Run) : Prop where
  fair : Fair r
  /-- User code does not schedule tasks forever. -/
  ends : ∀ i k, (∀ l, k ≤ l → ((r.state l).pc (.worker i)).base.inUser) →
    ∃ l, k ≤ l ∧ ∀ l' a, l ≤ l' → r.act l' = some (.worker i, a) → a = .step
  /-- A mio poll does not sleep over a wake. -/
  wakes : ∀ i, r.Served (fun x ↦ ∃ delivered, x = (.worker i, .pollReturn delivered)) fun c ↦
    (c.pc (.worker i)).base = .polling ∧ c.shared.wakePending = true

/-- A step of a worker in user code: it schedules something, or it is done. -/
theorem Move.inUser (h : Move (.worker i) m ℓ a m' ℓ') (hb : ℓ.base.inUser) :
    ℓ'.counter = ℓ.counter ∧ (∃ ts, ℓ'.localQueue = ℓ.localQueue ++ ts) ∧
      (ℓ'.base = ℓ.base ∧ (ℓ.call = none → a ≠ .step) ∨ ℓ'.base = ℓ.base.afterUser) := by
  cases h with
  | call hk hmove => exact ⟨rfl, ⟨[], by simp⟩, Or.inl ⟨rfl, fun h ↦ by cases hk.symm.trans h⟩⟩
  | worker hk hmove =>
    generalize hbase : ℓ.base = b at hmove hb
    cases hmove with
    | runningDone | eventsDone => exact ⟨rfl, ⟨[], by simp⟩, Or.inr rfl⟩
    | runningLocal | eventsLocal =>
      refine ⟨?_, ?_, Or.inl ⟨by simp [hbase], by simp⟩⟩
      · unfold scheduleLocal
        split_ifs <;> rfl
      · unfold scheduleLocal
        split_ifs
        · exact ⟨[_], rfl⟩
        · exact ⟨[], by simp⟩
    | runningGlobal | eventsGlobal => exact ⟨rfl, ⟨[], by simp⟩, Or.inl ⟨hbase, by simp⟩⟩
    | _ => exact absurd hb id

theorem Base.inUser.goesOn {b : Base} (hb : b.inUser) (hbase : ℓ.base = b) : ℓ.goesOn := by
  subst hbase
  refine Or.inr ⟨?_, ?_, ?_⟩ <;> intro h <;> rw [h] at hb <;> exact hb

/-- **User code returns**, whatever it has scheduled. -/
theorem leadsTo_afterUser (hobeys : r.Obeys ResumesCleared) (henv : Environment r) {b : Base}
    (hb : b.inUser) {I : Local → Prop}
    (hI : ∀ ℓ ℓ' ts, ℓ'.counter = ℓ.counter → ℓ'.localQueue = ℓ.localQueue ++ ts → I ℓ → I ℓ') :
    r.LeadsTo (fun c ↦ (c.pc (.worker i)).base = b ∧ I (c.pc (.worker i))) fun c ↦
      (c.pc (.worker i)).base = b.afterUser ∧ I (c.pc (.worker i)) := by
  intro k hk
  by_contra hnot
  push Not at hnot
  have hmoves {m m' : Shared} {ℓ ℓ' : Local} {a : Label} (hbase : ℓ.base = b) (hℓ : I ℓ)
      (h : Move (.worker i) m ℓ a m' ℓ') :
      I ℓ' ∧ (ℓ'.base = b ∧ (ℓ.call = none → a ≠ .step) ∨ ℓ'.base = b.afterUser) := by
    obtain ⟨hcounter, ⟨ts, hqueue⟩, hor⟩ := h.inUser (hbase ▸ hb)
    rw [hbase] at hor
    exact ⟨hI _ _ ts hcounter hqueue hℓ, hor⟩
  -- as long as it does not return, the worker is in user code
  have hstays {l : ℕ} (hl : k ≤ l) :
      ((r.state l).pc (.worker i)).base = b ∧ I ((r.state l).pc (.worker i)) := by
    refine r.keeps (I := fun c ↦ (c.pc (.worker i)).base = b ∧ I (c.pc (.worker i))) hl hk ?_
    rintro l ⟨θ, a⟩ hl - hnext ⟨hbase, hℓ⟩
    obtain ⟨m, ℓ, hs, hd⟩ := System.machine_step_eq_some.mp hnext
    have hgoal := hnot (l + 1) (hl.trans (Nat.le_succ l))
    rw [hd] at hgoal ⊢
    by_cases hθ : Thread.worker i = θ
    · subst hθ
      obtain ⟨hℓ', ⟨hbase', -⟩ | hbase'⟩ := hmoves hbase hℓ (move_of_step hs)
      · simpa using ⟨hbase', hℓ'⟩
      · simp [hbase', hℓ'] at hgoal
    · simpa [hθ] using ⟨hbase, hℓ⟩
  -- from some point on it does not schedule any more, and it is in no call
  obtain ⟨l, hl, honly⟩ := henv.ends i k fun l hl ↦ (hstays hl).1 ▸ hb
  obtain ⟨l₁, hl₁, hcall⟩ : ∃ l₁, l ≤ l₁ ∧ ((r.state l₁).pc (.worker i)).call = none := by
    by_cases h : ((r.state l).pc (.worker i)).call = none
    · exact ⟨l, le_rfl, h⟩
    · exact leadsTo_call_none hobeys henv.fair (.worker i) l h
  have hbase := hstays (hl.trans hl₁)
  obtain ⟨l₂, a, m, ℓ, hl₂, hpc, hact, hmove, hd⟩ :=
    exists_step henv.fair (θ := .worker i) rfl (hb.goesOn hbase.1)
  have hgoal := hnot (l₂ + 1) (((hl.trans hl₁).trans hl₂).trans (Nat.le_succ l₂))
  rw [hd] at hgoal
  obtain ⟨hℓ', ⟨-, hne⟩ | hbase'⟩ := hmoves hbase.1 hbase.2 hmove
  · exact hne hcall (honly l₂ a (hl₁.trans hl₂) hact)
  · simp [hbase', hℓ'] at hgoal

/-- The next step of a worker outside user code. -/
theorem exists_loopStep (hfair : Fair r) {k : ℕ} {b : Base}
    (hk : ((r.state k).pc (.worker i)).base = b) (hb : ¬b.mayCall) (hpolling : b ≠ .polling)
    (hwaiting : b ≠ .waiting) :
    ∃ l a m ℓ, k ≤ l ∧ r.act l = some (.worker i, a) ∧
      (r.state l).pc (.worker i) = (r.state k).pc (.worker i) ∧
      WorkerMove i (r.state l).shared ((r.state k).pc (.worker i)) b a m ℓ ∧
      r.state (l + 1) = ⟨m, Function.update (r.state l).pc (.worker i) ℓ⟩ := by
  have houtside : b ≠ .outside := by
    rintro rfl
    exact hb trivial
  have hgo : ((r.state k).pc (.worker i)).goesOn := by
    subst hk
    exact Or.inr ⟨houtside, hpolling, hwaiting⟩
  obtain ⟨l, a, m, ℓ, hl, hpc, hact, hmove, hd⟩ := exists_step hfair (θ := .worker i) rfl hgo
  refine ⟨l, a, m, ℓ, hl, hact, hpc, ?_, hd⟩
  cases hmove with
  | call hcall =>
    have hmay := ((ok_of_reachableUnder (r.reachable k)).2 (.worker i)).call _ hcall
    exact absurd (hk ▸ hmay.1) hb
  | worker _ hmove => rwa [hk] at hmove

/-! ## The global queue is looked at -/

/-- The number of rounds that the worker may still spend on its local queue. -/
def toCheck (counter : BitVec 64) : ℕ := 30 - counter.toNat % 31

/-- The counter may wrap around: then the worker looks at the global queue a bit earlier. -/
theorem toCheck_lt {v : BitVec 64} (h : (v + 1).toNat % 31 ≠ 0) : toCheck (v + 1) < toCheck v := by
  have hv := v.isLt
  have hone : (v + 1).toNat = (v.toNat + 1) % 2 ^ 64 := BitVec.toNat_add v 1
  rcases Nat.lt_or_ge (v.toNat + 1) (2 ^ 64) with hlt | hge
  · rw [Nat.mod_eq_of_lt hlt] at hone
    rw [toCheck, toCheck, hone]
    omega
  · have heq : v.toNat + 1 = 2 ^ 64 := le_antisymm hv hge
    rw [hone, heq, Nat.mod_self] at h
    exact absurd rfl h

/-- Where a worker should look at the global queue, its local queue is not so long that it does
not. -/
def Uncrowded (c : State) : Thread × Label → Prop
  | (.worker i, .step) => (c.pc (.worker i)).base = .top →
    ((c.pc (.worker i)).counter + 1).toNat % 31 = 0 → (c.pc (.worker i)).localQueue.length ≤ 16
  | _ => True

instance (c : State) : (a : Thread × Label) → Decidable (Uncrowded c a)
  | (.worker i, .step) => inferInstanceAs (Decidable ((c.pc (.worker i)).base = .top →
      ((c.pc (.worker i)).counter + 1).toNat % 31 = 0 →
        (c.pc (.worker i)).localQueue.length ≤ 16))
  | (.worker _, .spurious) | (.worker _, .scheduleLocal _) | (.worker _, .scheduleGlobal _)
  | (.worker _, .pollReturn _) | (.other _, _) => isTrue trivial

theorem top_cases (ℓ : Local) : (top ℓ).base = .getGlobal ∨
    (∃ t, (top ℓ).base = .running t) ∧ (top ℓ).counter = ℓ.counter + 1 ∧
      ((ℓ.counter + 1).toNat % 31 ≠ 0 ∨ ℓ.localQueue.length > 16) := by
  simp only [top]
  split_ifs with h
  · cases hq : ℓ.localQueue with
    | nil => exact Or.inl rfl
    | cons t q => exact Or.inr ⟨⟨t, rfl⟩, rfl, hq ▸ h⟩
  · exact Or.inl rfl

/-- **A worker at the top of its loop looks at the global queue** within 31 rounds. -/
theorem leadsTo_getGlobal_of_top (hobeys : r.Obeys fun c x ↦ ResumesCleared c x ∧ Uncrowded c x)
    (henv : Environment r) (v : BitVec 64) :
    r.LeadsTo (fun c ↦ (c.pc (.worker i)).base = .top ∧ (c.pc (.worker i)).counter = v) fun c ↦
      (c.pc (.worker i)).base = .getGlobal := by
  induction hv : toCheck v using Nat.strong_induction_on generalizing v with
  | _ rounds ih =>
    subst hv
    rintro k ⟨hbase, rfl⟩
    obtain ⟨l, a, m, ℓ, hl, hact, hpc, hmove, hd⟩ :=
      exists_loopStep henv.fair hbase (by simp [Base.mayCall]) (by simp) (by simp)
    generalize hℓ : (r.state k).pc (.worker i) = ℓ at hpc hmove hbase ih
    cases hmove
    have huncrowded := (hobeys l _ hact).2
    simp only [Uncrowded, hpc, hbase, forall_const] at huncrowded
    rcases top_cases ℓ with hget | ⟨⟨t, ht⟩, hcounter, hround⟩
    · exact ⟨l + 1, hl.trans (Nat.le_succ l), by simp [hd, hget]⟩
    · have hnext : (ℓ.counter + 1).toNat % 31 ≠ 0 := fun hzero ↦ by
        have hle := huncrowded hzero
        rcases hround with h | h
        · exact h hzero
        · omega
      have hrunning : ((r.state (l + 1)).pc (.worker i)).base = .running t ∧
          ((r.state (l + 1)).pc (.worker i)).counter = ℓ.counter + 1 := by
        simp [hd, ht, hcounter]
      obtain ⟨l₁, hl₁, htop⟩ := leadsTo_afterUser (fun k x hx ↦ (hobeys k x hx).1) henv
        (b := .running t) trivial (I := fun ℓ' ↦ ℓ'.counter = ℓ.counter + 1)
        (fun _ _ _ hc _ h ↦ hc.trans h) (l + 1) hrunning
      obtain ⟨l₂, hl₂, hget⟩ := ih _ (toCheck_lt hnext) _ rfl l₁ htop
      exact ⟨l₂, by omega, hget⟩

/-! ## The local queue is run -/

/-- Where a worker may have something in its local queue. -/
def Base.busy : Base → Prop
  | .top | .getGlobal | .running _ | .events | .unlockIo => True
  | _ => False

theorem WorkerMove.busy {b : Base} (h : WorkerMove i m ℓ b a m' ℓ') (hbase : ℓ.base = b)
    (hb : ¬b.busy → ℓ.localQueue = []) : ¬ℓ'.base.busy → ℓ'.localQueue = [] := by
  cases h with
  | top =>
    intro hnot
    exact absurd (of_top (P := Base.busy) trivial fun _ ↦ trivial) hnot
  | getGlobal =>
    intro hnot
    unfold Runtime.getGlobal at hnot ⊢
    cases hq : ℓ.localQueue ++ m.globalQueue.take 4 with
    | nil => rfl
    | cons t q =>
      rw [hq] at hnot
      exact absurd trivial hnot
  | runningLocal | eventsLocal | runningGlobal | eventsGlobal => simp [hbase, Base.busy]
  | runningDone | eventsDone | unlockIo | release | pollReturn =>
    exact fun hnot ↦ absurd trivial hnot
  | _ => exact fun _ ↦ hb id

theorem busy_of_reachable (h : (machine n capacity).Reachable c) :
    ¬(c.pc (.worker i)).base.busy → (c.pc (.worker i)).localQueue = [] := by
  refine System.invariant (I := fun c ↦ ¬(c.pc (.worker i)).base.busy →
    (c.pc (.worker i)).localQueue = []) h ?_ fun c θ a m ℓ hc hI _ hs ↦ ?_
  · rintro _ rfl -
    rfl
  change ¬(Function.update c.pc θ ℓ (.worker i)).base.busy → _
  by_cases hθ : Thread.worker i = θ
  · subst hθ
    simp only [Function.update_self]
    cases move_of_step hs with
    | call => exact hI
    | worker hk hmove => exact hmove.busy rfl hI
  · simpa only [Function.update_of_ne hθ] using hI

/-- The front of the local queue is taken, at the top of the loop or after a look at the global
queue. -/
theorem top_popped {x : ℕ} {rest : List ℕ} (h : x :: rest <+: ℓ.localQueue) :
    ((top ℓ).base = .running x ∧ rest <+: (top ℓ).localQueue) ∨
      ((top ℓ).base = .getGlobal ∧ x :: rest <+: (top ℓ).localQueue) := by
  obtain ⟨ts, hts⟩ := h
  simp only [top, ← hts]
  split_ifs
  · exact Or.inl ⟨rfl, ts, rfl⟩
  · exact Or.inr ⟨rfl, ts, rfl⟩

theorem getGlobal_popped {x : ℕ} {rest : List ℕ} (h : x :: rest <+: ℓ.localQueue) :
    (getGlobal m ℓ).2.base = .running x ∧ rest <+: (getGlobal m ℓ).2.localQueue := by
  obtain ⟨ts, hts⟩ := h
  simp only [getGlobal, ← hts]
  exact ⟨rfl, ts ++ m.globalQueue.take 4, by simp⟩

theorem leadsTo_popped (hobeys : r.Obeys ResumesCleared) (henv : Environment r) (x : ℕ)
    (rest : List ℕ) : r.LeadsTo (fun c ↦ x :: rest <+: (c.pc (.worker i)).localQueue) fun c ↦
      (c.pc (.worker i)).base = .running x ∧ rest <+: (c.pc (.worker i)).localQueue := by
  -- one step of the loop, from a place where the local queue stays as it is
  have hloop {b : Base} {Q : State → Prop} (hb : ¬b.mayCall) (hpolling : b ≠ .polling)
      (hwaiting : b ≠ .waiting) (hQ : ∀ m ℓ a m' ℓ' pc, ℓ.base = b → x :: rest <+: ℓ.localQueue →
        WorkerMove i m ℓ b a m' ℓ' → Q ⟨m', Function.update pc (.worker i) ℓ'⟩) :
      r.LeadsTo (fun c ↦ (c.pc (.worker i)).base = b ∧
        x :: rest <+: (c.pc (.worker i)).localQueue) Q := by
    rintro k ⟨hbase, hqueue⟩
    obtain ⟨l, a, m, ℓ, hl, -, -, hmove, hd⟩ :=
      exists_loopStep henv.fair hbase hb hpolling hwaiting
    exact ⟨l + 1, hl.trans (Nat.le_succ l), hd ▸ hQ _ _ a _ _ _ hbase hqueue hmove⟩
  have hget : r.LeadsTo (fun c ↦ (c.pc (.worker i)).base = .getGlobal ∧
      x :: rest <+: (c.pc (.worker i)).localQueue) fun c ↦
        (c.pc (.worker i)).base = .running x ∧ rest <+: (c.pc (.worker i)).localQueue := by
    refine hloop (by simp [Base.mayCall]) (by simp) (by simp) ?_
    rintro m ℓ a m' ℓ' pc - hqueue ⟨⟩
    simpa using getGlobal_popped hqueue
  have htop : r.LeadsTo (fun c ↦ (c.pc (.worker i)).base = .top ∧
      x :: rest <+: (c.pc (.worker i)).localQueue) fun c ↦
        (c.pc (.worker i)).base = .running x ∧ rest <+: (c.pc (.worker i)).localQueue := by
    refine LeadsTo.trans (Q := fun c ↦ ((c.pc (.worker i)).base = .running x ∧
      rest <+: (c.pc (.worker i)).localQueue) ∨ ((c.pc (.worker i)).base = .getGlobal ∧
        x :: rest <+: (c.pc (.worker i)).localQueue)) ?_ (.or (.of_imp fun _ _ h ↦ h) hget)
    refine hloop (by simp [Base.mayCall]) (by simp) (by simp) ?_
    rintro m ℓ a m' ℓ' pc - hqueue ⟨⟩
    simpa using top_popped hqueue
  have hunlock : r.LeadsTo (fun c ↦ (c.pc (.worker i)).base = .unlockIo ∧
      x :: rest <+: (c.pc (.worker i)).localQueue) fun c ↦ (c.pc (.worker i)).base = .top ∧
        x :: rest <+: (c.pc (.worker i)).localQueue := by
    refine hloop (by simp [Base.mayCall]) (by simp) (by simp) ?_
    rintro m ℓ a m' ℓ' pc - hqueue ⟨⟩
    simpa using hqueue
  have huser {b : Base} (hb : b.inUser) := leadsTo_afterUser (i := i) hobeys henv hb
    (I := fun ℓ ↦ x :: rest <+: ℓ.localQueue)
    fun ℓ ℓ' ts _ hqueue h ↦ hqueue ▸ h.trans (List.prefix_append _ ts)
  intro k hqueue
  have hbusy : ((r.state k).pc (.worker i)).base.busy := by
    by_contra hnot
    rw [busy_of_reachable (r.reachable k) hnot] at hqueue
    simp at hqueue
  cases hb : ((r.state k).pc (.worker i)).base with
  | top => exact htop k ⟨hb, hqueue⟩
  | getGlobal => exact hget k ⟨hb, hqueue⟩
  | running t => exact (huser (b := .running t) trivial).trans htop k ⟨hb, hqueue⟩
  | events => exact ((huser (b := .events) trivial).trans hunlock).trans htop k ⟨hb, hqueue⟩
  | unlockIo => exact hunlock.trans htop k ⟨hb, hqueue⟩
  | _ =>
    rw [hb] at hbusy
    exact absurd hbusy id

/-- **A task in a local queue is run**: the ones before it are run first. -/
theorem leadsTo_running_of_local (hobeys : r.Obeys ResumesCleared) (henv : Environment r) (t : ℕ) :
    r.LeadsTo (fun c ↦ t ∈ (c.pc (.worker i)).localQueue) fun c ↦
      (c.pc (.worker i)).base = .running t := by
  have hbehind (before : List ℕ) :
      r.LeadsTo (fun c ↦ before ++ [t] <+: (c.pc (.worker i)).localQueue) fun c ↦
        (c.pc (.worker i)).base = .running t := by
    induction before with
    | nil =>
      intro k hk
      obtain ⟨l, hl, hrunning, -⟩ := leadsTo_popped hobeys henv t [] k hk
      exact ⟨l, hl, hrunning⟩
    | cons x before ih =>
      intro k hk
      obtain ⟨l, hl, -, hqueue⟩ := leadsTo_popped hobeys henv x (before ++ [t]) k hk
      obtain ⟨l', hl', hrunning⟩ := ih l hqueue
      exact ⟨l', hl.trans hl', hrunning⟩
  intro k hk
  obtain ⟨before, after, hqueue⟩ := List.mem_iff_append.mp hk
  exact hbehind before k ⟨after, by simp [hqueue]⟩

end ArcDischarge.Runtime
