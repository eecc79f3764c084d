import ArcDischarge.SyncSlotMap.Chain

/-!
# The representation invariant of the slot map

`Chained s l` ties a state to the chain `l` of its memory: the pending link writes are those of the
calls in progress, the workers of the chain are the queue, and every call in progress finds what its
program counter relies on. `Observed` is about the notes a `pop` in progress has taken, and `CallOk`
is what is claimed of each finished one.

A `pop` relies on the chain having no second node only as long as no `push` has overlapped it, which
is why `PopOk` takes the overlap note: past that point a producer may have appended at any moment.
-/

namespace ArcDischarge.SyncSlotMap

/-- The write `slots[prev] := i` of a call in progress is still to come. -/
def State.linking (s : State) (i prev : ℕ) : Prop :=
  s.pushing i = some (.link prev) ∨
    (i = s.mem.cap ∧ ∃ c, s.popping = some c ∧ ∃ t, c.pc = .pushStub t (.link prev))

/-- What a `push(i)` in progress relies on. -/
def PushOk (m : Mem) (l : List ℕ) (i : ℕ) : PushPc → Prop
  | .reset => i ∉ l
  | .swap => i ∉ l ∧ m.slots i = m.len
  | .link _ => True
  | .panicked => False

/-- The chain that a `push(cap)` in progress works on while no `push` has overlapped. -/
def stubChain (m : Mem) (t : ℕ) : PushPc → List ℕ
  | .link _ => [t, m.cap]
  | _ => [t]

/-- What a `pop()` in progress relies on. -/
def PopOk (m : Mem) (l : List ℕ) (overlapped : Bool) : PopPc → Prop
  | .start => True
  | .skipStub next => m.tail = m.cap ∧ m.slots m.tail = next ∧ next ≤ m.cap
  | .loadNext t => m.tail = t ∧ t ≠ m.cap
  | .advance t next | .finish t next =>
    m.tail = t ∧ t ≠ m.cap ∧ m.slots m.tail = next ∧ next ≤ m.cap
  | .loadHead t => m.tail = t ∧ t ≠ m.cap ∧ (overlapped = true ∨ l = [t])
  | .pushStub t pc =>
    m.tail = t ∧ t ≠ m.cap ∧ PushOk m l m.cap pc ∧ (overlapped = true ∨ l = stubChain m t pc)
  | .reload t =>
    m.tail = t ∧ t ≠ m.cap ∧ (overlapped = true ∨ (l = [t, m.cap] ∧ m.slots t = m.cap))
  | .panicked => False

/-- The memory holds the chain `l`, and the calls in progress find it as they left it. -/
structure Chained (s : State) (l : List ℕ) : Prop where
  linked : Linked s.mem s.linking l
  swaps : s.swaps = s.returned ++ l.filter (· ≠ s.mem.cap)
  push : ∀ i pc, s.pushing i = some pc → i < s.mem.cap ∧ PushOk s.mem l i pc
  pop : ∀ c, s.popping = some c → PopOk s.mem l c.overlapped c.pc

/-- The notes of a `pop` in progress are up to date. -/
structure Observed (s : State) (c : PopCall) : Prop where
  empty : s.queue = [] → c.sawEmpty = true
  push : ∀ i < s.mem.cap, s.pushing i ≠ none → c.overlapped = true
  quiet : c.overlapped = false → s.queue = c.atStart

/-- What is claimed of a finished `pop`. -/
structure CallOk (r : PopReturn) : Prop where
  excused : r.result = .none ∨ r.result = .inconsistent →
    r.sawEmpty = true ∨ r.overlapped = true
  quiet : r.overlapped = false → r.result = match r.atStart with
    | [] => .none
    | i :: _ => .ready i

/-- The representation invariant. -/
structure Inv (cap : ℕ) (s : State) : Prop where
  cap_eq : s.mem.cap = cap
  chained : ∃ l, Chained s l
  observed : ∀ c, s.popping = some c → Observed s c
  swaps_lt : ∀ i ∈ s.swaps, i < cap
  calls : ∀ r ∈ s.calls, CallOk r

/-! ## Reading the invariant -/

section

variable {s : State} {l : List ℕ} {c : PopCall} {i prev : ℕ}

theorem Chained.queue_eq (h : Chained s l) : s.queue = l.filter (· ≠ s.mem.cap) := by
  rw [State.queue, h.swaps, List.drop_left]

theorem Chained.not_mem (h : Chained s l) (hi : i < s.mem.cap) (hq : i ∉ s.queue) : i ∉ l := by
  intro hl
  refine hq ?_
  rw [h.queue_eq, List.mem_filter]
  exact ⟨hl, by simp; omega⟩

/-- A pending link belongs to a `push` in progress, unless the `pop` is at its stub. -/
theorem Observed.of_linking (h : Chained s l) (ho : Observed s c) (hc : s.popping = some c)
    (hpc : ∀ t p, c.pc ≠ .pushStub t p) (hl : s.linking i prev) : c.overlapped = true := by
  rcases hl with hl | ⟨-, c', hc', t, ht⟩
  · exact ho.push i (h.push i _ hl).1 (by simp [hl])
  · rw [hc, Option.some.injEq] at hc'
    exact absurd (hc' ▸ ht) (hpc t _)

end

/-! ## Observing changes nothing else -/

section

variable (s : State)

@[simp] theorem State.observe_mem : s.observe.mem = s.mem := rfl

@[simp] theorem State.observe_pushing : s.observe.pushing = s.pushing := rfl

@[simp] theorem State.observe_swaps : s.observe.swaps = s.swaps := rfl

@[simp] theorem State.observe_calls : s.observe.calls = s.calls := rfl

@[simp] theorem State.observe_returned : s.observe.returned = s.returned := rfl

@[simp] theorem State.observe_queue : s.observe.queue = s.queue := rfl

theorem State.observe_popping_eq_some {c : PopCall} :
    s.observe.popping = some c ↔ ∃ c₀, s.popping = some c₀ ∧
      c = { c₀ with sawEmpty := c₀.sawEmpty || s.queue.isEmpty
                    overlapped := c₀.overlapped || s.pushInFlight } := by
  simp only [State.observe, Option.map_eq_some_iff]
  exact exists_congr fun _ ↦ and_congr_right fun _ ↦ eq_comm

variable {s}

theorem State.observe_linking {i prev : ℕ} : s.observe.linking i prev ↔ s.linking i prev := by
  simp [State.linking, State.observe]

theorem PopOk.overlap {m : Mem} {l : List ℕ} {o : Bool} {pc : PopPc} (h : PopOk m l o pc)
    (b : Bool) : PopOk m l (o || b) pc := by
  cases b
  · simpa using h
  · rw [Bool.or_true]
    cases pc with
    | loadHead t => exact ⟨h.1, h.2.1, Or.inl rfl⟩
    | pushStub t pc => exact ⟨h.1, h.2.1, h.2.2.1, Or.inl rfl⟩
    | reload t => exact ⟨h.1, h.2.1, Or.inl rfl⟩
    | _ => exact h

theorem Chained.observe {l : List ℕ} (h : Chained s l) : Chained s.observe l where
  linked := h.linked.congr fun _ _ ↦ State.observe_linking.symm
  swaps := h.swaps
  push := h.push
  pop c hc := by
    obtain ⟨c₀, hc₀, rfl⟩ := s.observe_popping_eq_some.mp hc
    exact (h.pop c₀ hc₀).overlap _

theorem State.pushInFlight_eq_true {i : ℕ} (hi : i < s.mem.cap) (h : s.pushing i ≠ none) :
    s.pushInFlight = true := by
  rw [State.pushInFlight, List.any_eq_true]
  exact ⟨i, List.mem_range.mpr hi, Option.isSome_iff_ne_none.mpr h⟩

theorem Observed.observe {c₀ : PopCall} (h : c₀.overlapped = false → s.queue = c₀.atStart) :
    Observed s.observe { c₀ with sawEmpty := c₀.sawEmpty || s.queue.isEmpty
                                 overlapped := c₀.overlapped || s.pushInFlight } where
  empty hq := by
    rw [State.observe_queue] at hq
    simp [hq]
  push i hi hp := by
    have hflight : s.pushInFlight = true := State.pushInFlight_eq_true hi hp
    simp [hflight]
  quiet ho := h (Bool.or_eq_false_iff.mp ho).1

end

/-! ## Stability

What one call relies on survives the memory steps of the others. -/

section

variable {m : Mem} {l : List ℕ} {i j prev n t : ℕ} {pc : PushPc} {p : PopPc}

theorem PushOk.reset (h : PushOk m l j pc) :
    PushOk { m with slots := Function.update m.slots i m.len } l j pc := by
  cases pc with
  | swap =>
    refine ⟨h.1, ?_⟩
    by_cases hj : j = i
    · subst hj
      exact Function.update_self ..
    · exact (Function.update_of_ne hj _ _).trans h.2
  | _ => exact h

theorem PushOk.swap (h : PushOk m l j pc) (hj : j ≠ i) :
    PushOk { m with head := i } (l ++ [i]) j pc := by
  cases pc with
  | reset => simpa [PushOk, hj] using h
  | swap => exact ⟨by simpa [hj] using h.1, h.2⟩
  | _ => exact h

theorem PushOk.link (h : PushOk m l j pc) (hprev : prev ∈ l) :
    PushOk { m with slots := Function.update m.slots prev i } l j pc := by
  cases pc with
  | swap =>
    have hj : j ≠ prev := fun he ↦ h.1 (he ▸ hprev)
    exact ⟨h.1, (Function.update_of_ne hj _ _).trans h.2⟩
  | _ => exact h

theorem PushOk.advance (h : PushOk m (t :: l) j pc) : PushOk { m with tail := n } l j pc := by
  cases pc with
  | reset => exact fun hj ↦ h (List.mem_cons_of_mem _ hj)
  | swap => exact ⟨fun hj ↦ h.1 (List.mem_cons_of_mem _ hj), h.2⟩
  | _ => exact h

theorem PopOk.reset (h : PopOk m l true p) (hi : m.tail ≠ i) :
    PopOk { m with slots := Function.update m.slots i m.len } l true p := by
  cases p with
  | skipStub next => exact ⟨h.1, (Function.update_of_ne hi _ _).trans h.2.1, h.2.2⟩
  | advance t next =>
    exact ⟨h.1, h.2.1, (Function.update_of_ne hi _ _).trans h.2.2.1, h.2.2.2⟩
  | finish t next =>
    exact ⟨h.1, h.2.1, (Function.update_of_ne hi _ _).trans h.2.2.1, h.2.2.2⟩
  | pushStub t pc => exact ⟨h.1, h.2.1, h.2.2.1.reset, Or.inl rfl⟩
  | reload t => exact ⟨h.1, h.2.1, Or.inl rfl⟩
  | _ => exact h

theorem PopOk.swap (h : PopOk m l true p) (hi : m.cap ≠ i) :
    PopOk { m with head := i } (l ++ [i]) true p := by
  cases p with
  | loadHead t => exact ⟨h.1, h.2.1, Or.inl rfl⟩
  | pushStub t pc => exact ⟨h.1, h.2.1, h.2.2.1.swap hi, Or.inl rfl⟩
  | reload t => exact ⟨h.1, h.2.1, Or.inl rfl⟩
  | _ => exact h

theorem PopOk.link (h : PopOk m l true p) (hprev : prev ∈ l) (hslot : m.slots prev = m.len) :
    PopOk { m with slots := Function.update m.slots prev i } l true p := by
  -- a link that a `pop` has read is not null, so it is not the one being written
  have hne : ∀ {next}, m.slots m.tail = next → next ≤ m.cap → m.tail ≠ prev := by
    rintro next hn hcap rfl
    rw [hn, Mem.len] at hslot
    omega
  cases p with
  | skipStub next =>
    exact ⟨h.1, (Function.update_of_ne (hne h.2.1 h.2.2) _ _).trans h.2.1, h.2.2⟩
  | advance t next =>
    exact ⟨h.1, h.2.1, (Function.update_of_ne (hne h.2.2.1 h.2.2.2) _ _).trans h.2.2.1, h.2.2.2⟩
  | finish t next =>
    exact ⟨h.1, h.2.1, (Function.update_of_ne (hne h.2.2.1 h.2.2.2) _ _).trans h.2.2.1, h.2.2.2⟩
  | pushStub t pc => exact ⟨h.1, h.2.1, h.2.2.1.link hprev, Or.inl rfl⟩
  | reload t => exact ⟨h.1, h.2.1, Or.inl rfl⟩
  | _ => exact h

end

end ArcDischarge.SyncSlotMap
