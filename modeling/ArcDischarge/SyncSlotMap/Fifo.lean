import ArcDischarge.SyncSlotMap.Steps

/-!
# The slot map refines a FIFO queue

Read off the representation invariant: each step of the slot map is a step of a FIFO queue, the
indices returned are a prefix of the indices swapped in, no slot access is out of range, and a `pop`
that returns nothing has an excuse — the queue was empty, or a `push` overlapped the call.
-/

namespace ArcDischarge.SyncSlotMap

variable {cap i : ℕ} {s t : State} {a : Action}

/-- No call of the slot map has panicked on an index out of range or on its own assertion. -/
def NoPanic (s : State) : Prop :=
  (∀ i, s.pushing i ≠ some .panicked) ∧
    ∀ c, s.popping = some c → c.pc ≠ .panicked ∧ ∀ t, c.pc ≠ .pushStub t .panicked

theorem Inv.noPanic (h : Inv cap s) : NoPanic s := by
  obtain ⟨l, hl⟩ := h.chained
  refine ⟨fun i hp ↦ (hl.push i _ hp).2, fun c hc ↦ ⟨fun hpc ↦ ?_, fun t hpc ↦ ?_⟩⟩
  · have hok := hl.pop c hc
    rw [hpc] at hok
    exact hok
  · have hok := hl.pop c hc
    rw [hpc] at hok
    exact hok.2.2.1

/-! ## The steps, as their callers see them -/

theorem queue_push (hstep : SyncSlotMap.step s (.push i) = some t) : s.pushing i = none ∧
    t.queue = s.queue ∧ t.pushing = Function.update s.pushing i (some .reset) := by
  cases move_of_step hstep with
  | push hp => exact ⟨hp, rfl, rfl⟩

/-- A `push(i)` takes its three steps; the second puts `i` in the queue. -/
theorem Inv.queue_pushStep (h : Inv cap s) (hstep : SyncSlotMap.step s (.pushStep i) = some t) :
    (s.pushing i = some .reset ∧ t.queue = s.queue ∧
        t.pushing = Function.update s.pushing i (some .swap)) ∨
      (s.pushing i = some .swap ∧ t.queue = s.queue ++ [i] ∧
        ∃ prev, t.pushing = Function.update s.pushing i (some (.link prev))) ∨
      ∃ prev, s.pushing i = some (.link prev) ∧ t.queue = s.queue ∧
        t.pushing = Function.update s.pushing i none := by
  have ht := h.step (a := .pushStep i) trivial hstep
  have hpanic := ht.noPanic.1 i
  cases move_of_step hstep with
  | @pushStep _ pc hp =>
    simp only [State.observe_pushing, Function.update_self] at hpanic
    cases pc with
    | reset =>
      refine Or.inl ⟨hp, rfl, congrArg (Function.update _ _) ?_⟩
      cases hstore : s.mem.store i s.mem.len <;> simp_all [Mem.push]
    | swap =>
      have hswaps : s.swaps ++ [i] = s.returned ++ (s.queue ++ [i]) := by
        rw [← List.append_assoc, h.returned_append_queue]
      exact Or.inr (Or.inl
        ⟨hp, List.append_cancel_left (ht.returned_append_queue.trans hswaps), _, rfl⟩)
    | link prev =>
      refine Or.inr (Or.inr ⟨prev, hp, rfl, congrArg (Function.update _ _) ?_⟩)
      cases hstore : s.mem.store prev i <;> simp_all [Mem.push]
    | panicked => simp [Mem.push] at hpanic

theorem queue_pop (hstep : SyncSlotMap.step s .pop = some t) :
    t.queue = s.queue ∧ t.pushing = s.pushing := by
  cases move_of_step hstep with
  | pop hp => exact ⟨rfl, rfl⟩

/-- A `pop()` goes on and leaves the queue alone, or returns, and only `Ready` takes from it. -/
theorem Inv.queue_popStep (h : Inv cap s) (hstep : SyncSlotMap.step s .popStep = some t) :
    t.pushing = s.pushing ∧
      ((t.popping ≠ none ∧ t.queue = s.queue) ∨
        ∃ r, t.popping = none ∧ t.calls = s.calls ++ [r] ∧
          s.queue = r.result.taken ++ t.queue) := by
  have ht := h.step (a := .popStep) trivial hstep
  cases move_of_step hstep with
  | popGoOn hc heq => exact ⟨rfl, Or.inl ⟨by simp [State.observe], rfl⟩⟩
  | @popReturn c m r hc heq =>
    refine ⟨rfl, Or.inr ⟨_, rfl, rfl, ?_⟩⟩
    have hret := s.returned_append_call ⟨r, c.atStart, c.sawEmpty, c.overlapped⟩
    refine (List.append_right_inj s.returned).mp ?_
    rw [← List.append_assoc, ← hret, h.returned_append_queue]
    exact ht.returned_append_queue.symm

/-! ## The refinement -/

/-- The abstract behaviour: a FIFO queue of indices, which a step leaves alone, extends at the back,
or shortens at the front. -/
inductive FifoStep : List ℕ → List ℕ → Prop where
  | stutter (q : List ℕ) : FifoStep q q
  | enqueue (q : List ℕ) (i : ℕ) : FifoStep q (q ++ [i])
  | dequeue (q : List ℕ) (i : ℕ) : FifoStep (i :: q) q

theorem fifoStep_of_step (h : (machine cap).ReachableUnder Fresh s)
    (hstep : (machine cap).step s a = some t) : FifoStep s.queue t.queue := by
  have hI := inv_of_reachable h
  cases a with
  | push i => exact (queue_push hstep).2.1 ▸ .stutter _
  | pushStep i =>
    rcases hI.queue_pushStep hstep with ⟨-, hq, -⟩ | ⟨-, hq, -⟩ | ⟨_, -, hq, -⟩
    · exact hq ▸ .stutter _
    · exact hq ▸ .enqueue _ _
    · exact hq ▸ .stutter _
  | pop => exact (queue_pop hstep).1 ▸ .stutter _
  | popStep =>
    obtain ⟨-, ⟨-, hq⟩ | ⟨r, -, -, hq⟩⟩ := hI.queue_popStep hstep
    · exact hq ▸ .stutter _
    · rw [hq]
      cases r.result
      · exact .dequeue _ _
      · exact .stutter _
      · exact .stutter _

/-- What the callers of the slot map see of it in one state: the indices returned so far, and each
finished `pop`. -/
structure LooksFifo (cap : ℕ) (s : State) : Prop where
  /-- Each push is returned at most once, in the order of the head swaps, and none is skipped. -/
  in_order : s.returned <+: s.swaps
  no_panic : NoPanic s
  /-- In particular the stub `cap` is never returned. -/
  ready_lt : ∀ i ∈ s.returned, i < cap
  excused : ∀ r ∈ s.calls, r.result = .none ∨ r.result = .inconsistent →
    r.sawEmpty = true ∨ r.overlapped = true
  /-- With no overlapping push, `pop` is the `pop` of a FIFO queue. -/
  quiet : ∀ r ∈ s.calls, r.overlapped = false → r.result = match r.atStart with
    | [] => .none
    | i :: _ => .ready i

/-- **The slot map is a FIFO queue**, for every capacity and every interleaving of pushes that keep
to the contract of `push` with the steps of the pops. -/
theorem looksFifo_of_reachable (cap : ℕ) (s : State) (h : (machine cap).ReachableUnder Fresh s) :
    LooksFifo cap s := by
  have hI := inv_of_reachable h
  have hswaps := hI.returned_append_queue
  exact
    { in_order := ⟨s.queue, hswaps⟩
      no_panic := hI.noPanic
      ready_lt := fun i hi ↦ hI.swaps_lt i (hswaps ▸ List.mem_append_left _ hi)
      excused := fun r hr ↦ (hI.calls r hr).excused
      quiet := fun r hr ↦ (hI.calls r hr).quiet }

/-- Two pushes overlap, the second links first, and a `pop` between them is told so. -/
def overlappingPushes : List Action :=
  [.push 1, .pushStep 1, .pushStep 1, .push 0, .pushStep 0, .pushStep 0, .pushStep 0, .pop,
    .popStep, .pushStep 1, .pop, .popStep, .popStep, .popStep, .popStep, .pop, .popStep, .popStep,
    .popStep, .popStep, .popStep, .popStep, .popStep]

theorem looksFifo_overlappingPushes : ∃ s, (machine 2).ReachableUnder Fresh s ∧
    s.returned = [1, 0] ∧ s.swaps = [1, 0] ∧ LooksFifo 2 s := by
  have hr := Machine.ReachableUnder.of_isSome_exec (m := machine 2) (G := Fresh) (.init rfl)
    overlappingPushes (by decide) (by decide)
  exact ⟨_, hr, by decide, by decide, looksFifo_of_reachable 2 _ hr⟩

end ArcDischarge.SyncSlotMap
