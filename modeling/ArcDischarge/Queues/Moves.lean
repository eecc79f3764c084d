import ArcDischarge.Queues.Model

/-!
# What a step on the queues can do

The step function inverted once. The ways to schedule a task come down to two moves: the entry goes
to the back of the local queue, or the thread is about to lock the global queue with it. The loop of
`get_many_global_tasks` has a rule of its own: what each round of it keeps, it keeps.
-/

namespace ArcDischarge.Queues

/-- Task `t` is one of runtime `r`, or is allocated now. -/
inductive Allocates (m : Shared) (r t : ℕ) : Shared → Prop where
  | old (h : m.handle t = some r) : Allocates m r t m
  | new (h : m.handle t = none) : Allocates m r t (m.allocate r t)

inductive Move (θ : Thread) (m : Shared) (ℓ : Local) : Shared → Local → Prop where
  | popLocal {h h' : ExecutorHandle} {e : Entry} {counter : BitVec 64} (hpc : ℓ.pc = .top)
      (hh : ℓ.handle = some h) (hpop : h.pop = some (e, h')) :
      Move θ m ℓ m ({ ℓ with counter }.run h' e)
  | skipLocal {h : ExecutorHandle} {counter : BitVec 64} (hpc : ℓ.pc = .top)
      (hh : ℓ.handle = some h) (hshort : h.localQueue.length ≤ 16) :
      Move θ m ℓ m { ℓ with counter, pc := .getMany }
  | getSome {h h' : ExecutorHandle} {e : Entry} (hpc : ℓ.pc = .getMany) (hh : ℓ.handle = some h)
      (hpop : (getMany 4 m h).2.pop = some (e, h')) :
      Move θ m ℓ (getMany 4 m h).1 (ℓ.run h' e)
  | getNone {h : ExecutorHandle} (hpc : ℓ.pc = .getMany) (hh : ℓ.handle = some h)
      (hpop : (getMany 4 m h).2.pop = none) :
      Move θ m ℓ (getMany 4 m h).1
        { ℓ with handle := some (getMany 4 m h).2, pc := .idle (m.globalQueue h.shared) }
  | poisoned {r : ℕ} (h : m.poisoned r = true) : Move θ m ℓ m { ℓ with pc := .panicked }
  | pollTimeout {seen : List Entry} (hpc : ℓ.pc = .idle seen) :
      Move θ m ℓ m { ℓ with pc := .code none }
  | park {seen : List Entry} (hpc : ℓ.pc = .idle seen) : Move θ m ℓ m { ℓ with pc := .parked }
  | unpark (hpc : ℓ.pc = .parked) : Move θ m ℓ m { ℓ with pc := .top }
  | ret {r i : ℕ} {running : Option ℕ} (hθ : θ = .worker r i) (hpc : ℓ.pc = .code running) :
      Move θ m ℓ m { ℓ with pc := .top }
  | unwinds : Move θ m ℓ m ℓ
  | blockOn {r : ℕ} {running : Option ℕ} (hpc : ℓ.pc = .code running) (hh : ℓ.handle = none) :
      Move θ m ℓ m { ℓ with handle := some (.new r 0) }
  | reset {k : ℕ} {running : Option ℕ} (hθ : θ = .other k) (hpc : ℓ.pc = .code running) :
      Move θ m ℓ m { ℓ with handle := none }
  | scheduleLocal {m' : Shared} {h : ExecutorHandle} {t : ℕ} {running : Option ℕ}
      (hpc : ℓ.pc = .code running) (hm : Allocates m h.shared t m') (hh : ℓ.handle = some h)
      (hroom : h.localQueue.length < h.localQueue.capacity) :
      Move θ m ℓ { m' with accepted := m'.accepted ++ [ℓ.entry θ t] }
        { ℓ with handle := some (h.push (ℓ.entry θ t)), calls := ℓ.calls + 1 }
  | scheduleGlobal {m' : Shared} {r t : ℕ} {running : Option ℕ} (hpc : ℓ.pc = .code running)
      (hm : Allocates m r t m') : Move θ m ℓ m' (ℓ.scheduleGlobal running (ℓ.entry θ t))
  | merge {r : ℕ} {e : Entry} {running : Option ℕ} (hpc : ℓ.pc = .push running e)
      (hr : m.handle e.task = some r) (hlinked : m.linked e.task = true) :
      Move θ m ℓ { m with merged := m.merged ++ [(e, m.globalQueue r)] }
        { ℓ with pc := .code running }
  | push {r : ℕ} {e : Entry} {running : Option ℕ} (hpc : ℓ.pc = .push running e)
      (hr : m.handle e.task = some r) (hlinked : m.linked e.task = false) :
      Move θ m ℓ
        { m with linked := Function.update m.linked e.task true
                 globalQueue := Function.update m.globalQueue r (m.globalQueue r ++ [e])
                 accepted := m.accepted ++ [e] } { ℓ with pc := .code running }

section

variable {θ : Thread} {m m' m₁ : Shared} {ℓ ℓ' : Local} {h h' : ExecutorHandle} {e : Entry}
  {r t n : ℕ} {running : Option ℕ} {a : Label}

theorem move_of_scheduleLocal (hpc : ℓ.pc = .code running) (hm : Allocates m h.shared t m₁)
    (hh : ℓ.handle = some h)
    (hs : scheduleLocal m₁ ℓ h running (ℓ.entry θ t) = (m', ℓ')) : Move θ m ℓ m' ℓ' := by
  rw [scheduleLocal] at hs
  split at hs <;> cases hs
  · exact .scheduleLocal hpc hm hh ‹_›
  · exact .scheduleGlobal hpc hm

theorem move_of_schedule (hpc : ℓ.pc = .code running) (hm : Allocates m r t m₁)
    (hs : schedule m₁ ℓ r running (ℓ.entry θ t) = (m', ℓ')) : Move θ m ℓ m' ℓ' := by
  rw [schedule] at hs
  split at hs
  · split at hs
    · rename_i hshared
      subst hshared
      exact move_of_scheduleLocal hpc hm ‹_› hs
    · cases hs
      exact .scheduleGlobal hpc hm
  · cases hs
    exact .scheduleGlobal hpc hm

theorem move_of_codeStep (hpc : ℓ.pc = .code running)
    (hs : codeStep θ m ℓ running a = some (m', ℓ')) : Move θ m ℓ m' ℓ' := by
  rw [codeStep.eq_def] at hs
  split at hs
  · split at hs
    · rename_i hnew
      exact move_of_schedule hpc (.new hnew) (Option.some.inj hs)
    · cases hs
  · split at hs
    · split at hs
      · rename_i hh hnew
        exact move_of_scheduleLocal hpc (.new hnew) hh (Option.some.inj hs)
      · cases hs
    · cases hs
      exact .unwinds
  · obtain ⟨r, hr, hs⟩ := Option.map_eq_some_iff.mp hs
    exact move_of_schedule hpc (.old hr) hs
  · obtain ⟨r, hr, hs⟩ := Option.map_eq_some_iff.mp hs
    cases hs
    exact .scheduleGlobal hpc (.old hr)
  · obtain ⟨t, -, hs⟩ := Option.bind_eq_some_iff.mp hs
    obtain ⟨r, hr, hs⟩ := Option.map_eq_some_iff.mp hs
    cases hs
    exact .scheduleGlobal hpc (.old hr)
  · split at hs <;> cases hs
    · exact .unwinds
    · exact .blockOn hpc ‹_›
  · split at hs <;> cases hs
    exact .reset rfl hpc
  · split at hs <;> cases hs
    exact .ret rfl hpc
  · cases hs

theorem move_of_pushStep (hpc : ℓ.pc = .push running e)
    (hs : pushStep m ℓ running e = some (m', ℓ')) : Move θ m ℓ m' ℓ' := by
  obtain ⟨r, hr, hs⟩ := Option.map_eq_some_iff.mp hs
  split at hs
  · cases hs
    exact .poisoned ‹_›
  · split at hs
    · cases hs
      exact .merge hpc hr ‹_›
    · rename_i hlinked
      rw [Bool.not_eq_true] at hlinked
      -- the link is free, so `push_back` does not panic
      rw [Shared.pushBack, hlinked] at hs
      cases hs
      exact .push hpc hr hlinked

theorem move_of_topStep (hpc : ℓ.pc = .top) (hh : ℓ.handle = some h)
    (hs : topStep m ℓ h = (m', ℓ')) : Move θ m ℓ m' ℓ' := by
  rw [topStep] at hs
  split at hs
  · rename_i htask
    cases hs
    split at htask
    · exact .popLocal hpc hh htask
    · cases htask
  · rename_i htask
    cases hs
    refine .skipLocal hpc hh ?_
    split at htask
    · -- the local queue is empty
      rw [ExecutorHandle.pop, Option.map_eq_none_iff, VecDeque.popFront_eq_none] at htask
      rw [VecDeque.length, htask]
      exact Nat.zero_le _
    · omega

theorem move_of_getManyStep (hpc : ℓ.pc = .getMany) (hh : ℓ.handle = some h)
    (hs : getManyStep m ℓ h = (m', ℓ')) : Move θ m ℓ m' ℓ' := by
  rw [getManyStep] at hs
  split at hs
  · cases hs
    exact .poisoned ‹_›
  · dsimp only at hs
    split at hs <;> cases hs
    · exact .getSome hpc hh ‹_›
    · exact .getNone hpc hh ‹_›

theorem move_of_step (hs : step θ m ℓ a = some (m', ℓ')) : Move θ m ℓ m' ℓ' := by
  unfold step at hs
  split at hs
  · obtain ⟨h, hh, hs⟩ := Option.map_eq_some_iff.mp hs
    exact move_of_topStep ‹_› hh hs
  · obtain ⟨h, hh, hs⟩ := Option.map_eq_some_iff.mp hs
    exact move_of_getManyStep ‹_› hh hs
  · cases hs
    exact .pollTimeout ‹_›
  · cases hs
    exact .park ‹_›
  · cases hs
    exact .unpark ‹_›
  · exact move_of_pushStep ‹_› hs
  · exact move_of_codeStep ‹_› hs
  · cases hs

/-! ## Refills -/

/-- **The rule of the loop** of `get_many_global_tasks`. -/
theorem getMany_rule {P : ℕ → Shared → ExecutorHandle → Prop}
    (pull : ∀ k m h e m', P (k + 1) m h → m.popFront h.shared = some (e, m') → P k m' (h.push e))
    (stop : ∀ k m h, P (k + 1) m h → m.popFront h.shared = none → P k m h) (hP : P n m h) :
    P 0 (getMany n m h).1 (getMany n m h).2 := by
  induction n generalizing m h with
  | zero => exact hP
  | succ n ih =>
    rw [getMany]
    split
    · exact ih (pull n m h _ _ hP ‹_›)
    · exact ih (stop n m h hP ‹_›)

theorem of_popFront (hpop : m.popFront r = some (e, m')) : ∃ rest, m.globalQueue r = e :: rest ∧
    m' = { m with linked := Function.update m.linked e.task false
                  globalQueue := Function.update m.globalQueue r rest } := by
  rw [Shared.popFront] at hpop
  split at hpop
  · cases hpop
  · rename_i rest hqueue
    cases hpop
    exact ⟨rest, hqueue, rfl⟩

theorem of_pop (hpop : h.pop = some (e, h')) : ∃ rest, h.localQueue.items = e :: rest ∧
    h' = { h with localQueue := ⟨rest, h.localQueue.capacity⟩, popped := h.popped ++ [e] } := by
  obtain ⟨r, hr, heq⟩ := Option.map_eq_some_iff.mp hpop
  cases heq
  obtain ⟨hitems, hcapacity⟩ := VecDeque.of_popFront hr
  refine ⟨r.2.items, hitems, ?_⟩
  rw [← hcapacity]

theorem pop_eq_none : h.pop = none ↔ h.localQueue.items = [] := by
  rw [ExecutorHandle.pop, Option.map_eq_none_iff, VecDeque.popFront_eq_none]

@[simp] theorem push_items : (h.push e).localQueue.items = h.localQueue.items ++ [e] := rfl

end

end ArcDischarge.Queues
