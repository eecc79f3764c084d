import ArcDischarge.SyncSlotMap.Invariant

/-!
# The slot map without its contract

A worker whose Condvar wait returns spuriously pushes itself while it is still in the queue, and the
chain is then no longer a chain. What survives is bounds: whatever is pushed, in whatever order,
every index in memory stays in range, the stub never links to itself, and `pop` returns workers
only. This is all that the wake-up argument of the runtime needs of the map.
-/

namespace ArcDischarge.SyncSlotMap

/-- What a `push(i)` has read is in range. -/
def PushPc.InRange (cap : ℕ) : PushPc → Prop
  | .link prev => prev ≤ cap
  | .reset | .swap => True
  | .panicked => False

/-- The stub is pushed only behind a worker, so that it is never its own predecessor. -/
def PushPc.StubInRange (cap head : ℕ) : PushPc → Prop
  | .link prev => prev < cap
  | .reset | .swap => head ≠ cap
  | .panicked => False

def PopPc.InRange (cap head : ℕ) : PopPc → Prop
  | .start => True
  | .skipStub next | .loadNext next | .loadHead next | .reload next => next < cap
  | .advance tail next | .finish tail next => tail < cap ∧ next ≤ cap
  | .pushStub tail pc => tail < cap ∧ pc.StubInRange cap head
  | .panicked => False

/-- Every index that the map holds, or has read, is in range. -/
structure InRange (cap : ℕ) (s : State) : Prop where
  cap_eq : s.mem.cap = cap
  tail_le : s.mem.tail ≤ cap
  head_le : s.mem.head ≤ cap
  slots_le : ∀ i ≤ cap, s.mem.slots i ≤ cap + 1
  stub : s.mem.slots cap ≠ cap
  push : ∀ i pc, s.pushing i = some pc → i < cap ∧ pc.InRange cap
  pop : ∀ c, s.popping = some c → c.pc.InRange cap s.mem.head
  ready_lt : ∀ r ∈ s.calls, ∀ i, r.result = .ready i → i < cap

variable {cap i : ℕ} {s t : State} {c : PopCall}

theorem InRange.new (cap : ℕ) : InRange cap (.new cap) := by
  constructor <;> simp [State.new, Mem.new]

theorem InRange.observe (h : InRange cap s) : InRange cap s.observe where
  cap_eq := h.cap_eq
  tail_le := h.tail_le
  head_le := h.head_le
  slots_le := h.slots_le
  stub := h.stub
  push := h.push
  pop c hc := by
    obtain ⟨c₀, hc₀, rfl⟩ := s.observe_popping_eq_some.mp hc
    exact h.pop c₀ hc₀
  ready_lt := h.ready_lt

/-- Another head is as good for the stub, unless it is the stub. -/
theorem PopPc.InRange.head {pc : PopPc} {head head' : ℕ} (h : pc.InRange cap head)
    (hne : head' ≠ cap) : pc.InRange cap head' := by
  cases pc with
  | pushStub tail p =>
    obtain ⟨htail, hp⟩ := h
    refine ⟨htail, ?_⟩
    cases p with
    | reset | swap => exact hne
    | link | panicked => exact hp
  | _ => exact h

/-- A store keeps the slots in range, and may not make the stub its own successor. -/
theorem InRange.store (h : InRange cap s) {j v : ℕ} (hv : v ≤ cap + 1)
    (hstub : j = cap → v ≠ cap) :
    (∀ i ≤ cap, Function.update s.mem.slots j v i ≤ cap + 1) ∧
      Function.update s.mem.slots j v cap ≠ cap := by
  constructor
  · intro i hi
    by_cases hij : i = j
    · rwa [hij, Function.update_self]
    · rw [Function.update_of_ne hij]
      exact h.slots_le i hi
  · by_cases hj : j = cap
    · rw [hj, Function.update_self]
      exact hstub hj
    · rw [Function.update_of_ne (Ne.symm hj)]
      exact h.stub

theorem InRange.pushing_update (h : InRange cap s) (hi : i < cap) {pc' : Option PushPc}
    (hpc : ∀ pc, pc' = some pc → pc.InRange cap) (j : ℕ) (pc : PushPc)
    (hj : Function.update s.pushing i pc' j = some pc) : j < cap ∧ pc.InRange cap := by
  by_cases hji : j = i
  · rw [hji, Function.update_self] at hj
    exact ⟨hji ▸ hi, hpc pc hj⟩
  · rw [Function.update_of_ne hji] at hj
    exact h.push j pc hj

theorem InRange.lt_len (h : InRange cap s) {j : ℕ} (hj : j ≤ cap) : j < s.mem.len := by
  rw [Mem.len, h.cap_eq]
  exact Nat.lt_succ_of_le hj

theorem InRange.pushStep {pc : PushPc} (h : InRange cap s) (hp : s.pushing i = some pc)
    (swaps : List ℕ) : InRange cap { s with
      mem := (s.mem.push i pc).1
      pushing := Function.update s.pushing i (s.mem.push i pc).2
      swaps := swaps } := by
  obtain ⟨hi, hpc⟩ := h.push i pc hp
  cases pc with
  | reset =>
    have hlen : s.mem.len = cap + 1 := by rw [Mem.len, h.cap_eq]
    obtain ⟨hslots, hstub⟩ := h.store (Nat.le_of_eq hlen) fun heq ↦ absurd heq hi.ne
    simp only [Mem.push, Mem.store, h.lt_len hi.le, if_true]
    refine ⟨h.cap_eq, h.tail_le, h.head_le, hslots, hstub, h.pushing_update hi fun pc hpc ↦ ?_,
      h.pop, h.ready_lt⟩
    cases hpc
    trivial
  | swap =>
    refine ⟨h.cap_eq, h.tail_le, hi.le, h.slots_le, h.stub, h.pushing_update hi fun pc hpc ↦ ?_,
      fun c hc ↦ (h.pop c hc).head hi.ne, h.ready_lt⟩
    cases hpc
    exact h.head_le
  | link prev =>
    obtain ⟨hslots, hstub⟩ := h.store (j := prev) (Nat.le_succ_of_le hi.le) fun _ ↦ hi.ne
    simp only [Mem.push, Mem.store, h.lt_len hpc, if_true]
    refine ⟨h.cap_eq, h.tail_le, h.head_le, hslots, hstub, h.pushing_update hi fun pc hpc ↦ ?_,
      h.pop, h.ready_lt⟩
    cases hpc
  | panicked => exact absurd hpc id

/-- The stub's own `push`, inside a `pop`. -/
theorem InRange.stubStep {tail : ℕ} {pc : PushPc} (h : InRange cap s) (hc : s.popping = some c)
    (hpc : c.pc = .pushStub tail pc) : InRange cap { s with
      mem := (s.mem.push s.mem.cap pc).1
      popping := some { c with pc := match (s.mem.push s.mem.cap pc).2 with
        | some pc' => .pushStub tail pc'
        | none => .reload tail } } := by
  have hok := h.pop c hc
  rw [hpc] at hok
  obtain ⟨htail, hok⟩ := hok
  have hcap := h.cap_eq
  cases pc with
  | reset =>
    have hlen : s.mem.len = cap + 1 := by rw [Mem.len, hcap]
    obtain ⟨hslots, hstub⟩ := h.store (j := cap) (Nat.le_of_eq hlen) fun _ ↦ by omega
    simp only [Mem.push, Mem.store, hcap, h.lt_len (Nat.le_refl cap), if_true]
    refine ⟨rfl, h.tail_le, h.head_le, hslots, hstub, h.push, fun c' hc' ↦ ?_, h.ready_lt⟩
    cases hc'
    exact ⟨htail, hok⟩
  | swap =>
    simp only [Mem.push, hcap]
    refine ⟨rfl, h.tail_le, Nat.le_refl cap, h.slots_le, h.stub, h.push, fun c' hc' ↦ ?_,
      h.ready_lt⟩
    cases hc'
    exact ⟨htail, Nat.lt_of_le_of_ne h.head_le hok⟩
  | link prev =>
    obtain ⟨hslots, hstub⟩ := h.store (j := prev) (Nat.le_succ cap) fun heq ↦ absurd heq hok.ne
    simp only [Mem.push, Mem.store, hcap, h.lt_len hok.le, if_true]
    refine ⟨rfl, h.tail_le, h.head_le, hslots, hstub, h.push, fun c' hc' ↦ ?_, h.ready_lt⟩
    cases hc'
    exact htail
  | panicked => exact absurd hok id

theorem InRange.load (h : InRange cap s) {j : ℕ} (hj : j ≤ cap) :
    s.mem.load j = some (s.mem.slots j) := by
  rw [Mem.load, if_pos (h.lt_len hj)]

theorem InRange.test (h : InRange cap s) {tail next : ℕ} (htail : tail < cap) :
    (s.mem.test tail next).InRange cap s.mem.head := by
  unfold Mem.test
  split
  · exact ⟨htail, h.cap_eq ▸ ‹_›⟩
  · exact htail

/-- A step of a `pop` that only reads. -/
theorem InRange.pop_reads (h : InRange cap s) {pc : PopPc} {r : PopPc ⊕ ReadySlot}
    (hpop : s.mem.pop pc = (s.mem, r)) (hnext : ∀ pc', r = .inl pc' → pc'.InRange cap s.mem.head)
    (hret : ∀ i, r ≠ .inr (.ready i)) :
    ∃ tail ≤ cap, (s.mem.pop pc).1 = { s.mem with tail := tail } ∧
      (∀ pc', (s.mem.pop pc).2 = .inl pc' → pc'.InRange cap s.mem.head) ∧
      ∀ i, (s.mem.pop pc).2 = .inr (.ready i) → i < cap := by
  refine ⟨s.mem.tail, h.tail_le, ?_⟩
  rw [hpop]
  exact ⟨rfl, hnext, fun i hi ↦ absurd hi (hret i)⟩

/-- Any other step of a `pop` writes at most the tail. -/
theorem InRange.pop_tail (h : InRange cap s) {pc : PopPc} (hpc : pc.InRange cap s.mem.head)
    (hstub : ∀ tail p, pc ≠ .pushStub tail p) :
    ∃ tail ≤ cap, (s.mem.pop pc).1 = { s.mem with tail := tail } ∧
      (∀ pc', (s.mem.pop pc).2 = .inl pc' → pc'.InRange cap s.mem.head) ∧
      ∀ i, (s.mem.pop pc).2 = .inr (.ready i) → i < cap := by
  have hcap := h.cap_eq
  cases pc with
  | start =>
    by_cases htail : s.mem.tail = s.mem.cap
    · by_cases hnext : s.mem.slots s.mem.tail > s.mem.cap
      · refine h.pop_reads (r := .inr .none) ?_ (by simp) (by simp)
        rw [Mem.pop, h.load h.tail_le]
        dsimp only
        rw [if_pos htail, if_pos hnext]
      · refine h.pop_reads (r := .inl (.skipStub (s.mem.slots s.mem.tail))) ?_ (fun pc' hpc' ↦ ?_)
          (by simp)
        · rw [Mem.pop, h.load h.tail_le]
          dsimp only
          rw [if_pos htail, if_neg hnext]
        · -- the stub does not link to itself
          cases hpc'
          rw [htail, hcap] at hnext ⊢
          exact Nat.lt_of_le_of_ne (Nat.not_lt.mp hnext) h.stub
    · refine h.pop_reads (r := .inl (s.mem.test s.mem.tail (s.mem.slots s.mem.tail))) ?_
        (fun pc' hpc' ↦ ?_) (by simp)
      · rw [Mem.pop, h.load h.tail_le]
        dsimp only
        rw [if_neg htail]
      · cases hpc'
        exact h.test (Nat.lt_of_le_of_ne h.tail_le (hcap ▸ htail))
  | loadNext tail =>
    refine h.pop_reads (r := .inl (s.mem.test tail (s.mem.slots tail))) ?_ (fun pc' hpc' ↦ ?_)
      (by simp)
    · rw [Mem.pop, h.load (Nat.le_of_lt hpc)]
    · cases hpc'
      exact h.test hpc
  | loadHead tail =>
    by_cases hhead : s.mem.head = tail
    · refine h.pop_reads (r := .inl (.pushStub tail .reset)) (by simp [Mem.pop, hhead])
        (fun pc' hpc' ↦ ?_) (by simp)
      cases hpc'
      exact ⟨hpc, hhead ▸ Nat.ne_of_lt hpc⟩
    · exact h.pop_reads (r := .inr .inconsistent) (by simp [Mem.pop, hhead]) (by simp) (by simp)
  | reload tail =>
    by_cases hnext : s.mem.slots tail ≤ s.mem.cap
    · refine h.pop_reads (r := .inl (.finish tail (s.mem.slots tail))) ?_ (fun pc' hpc' ↦ ?_)
        (by simp)
      · simp [Mem.pop, h.load (Nat.le_of_lt hpc), hnext]
      · cases hpc'
        exact ⟨hpc, hcap ▸ hnext⟩
    · refine h.pop_reads (r := .inr .inconsistent) ?_ (by simp) (by simp)
      simp [Mem.pop, h.load (Nat.le_of_lt hpc), hnext]
  | skipStub next =>
    refine ⟨next, Nat.le_of_lt hpc, rfl, fun pc' hpc' ↦ ?_, by simp [Mem.pop]⟩
    cases hpc'
    exact hpc
  | advance tail next =>
    have hne : tail ≠ s.mem.cap := hcap ▸ Nat.ne_of_lt hpc.1
    exact ⟨next, hpc.2, rfl, by simp [Mem.pop, hne], by simpa [Mem.pop, hne] using hpc.1⟩
  | finish tail next =>
    exact ⟨next, hpc.2, rfl, by simp [Mem.pop], by simpa [Mem.pop] using hpc.1⟩
  | pushStub tail p => exact absurd rfl (hstub tail p)
  | panicked => exact absurd hpc id

theorem InRange.popStep (h : InRange cap s) (hc : s.popping = some c) :
    InRange cap (match s.mem.pop c.pc with
      | (m, .inl pc) => { s with mem := m, popping := some { c with pc := pc } }
      | (m, .inr r) =>
        { s with mem := m
                 popping := none
                 calls := s.calls ++ [⟨r, c.atStart, c.sawEmpty, c.overlapped⟩] }) := by
  by_cases hstub : ∃ tail p, c.pc = .pushStub tail p
  · obtain ⟨tail, p, hpc⟩ := hstub
    have hstep := h.stubStep hc hpc
    rw [hpc]
    cases hpush : s.mem.push s.mem.cap p with
    | mk m p' => cases p' <;> simpa only [Mem.pop, hpush] using hstep
  · obtain ⟨tail, htail, hmem, hnext, hret⟩ :=
      h.pop_tail (h.pop c hc) fun tail p hpc ↦ hstub ⟨tail, p, hpc⟩
    cases hr : s.mem.pop c.pc with
    | mk m r =>
      obtain rfl : m = _ := by simpa [hr] using hmem
      rw [hr] at hnext hret
      cases r with
      | inl pc =>
        refine ⟨h.cap_eq, htail, h.head_le, h.slots_le, h.stub, h.push, fun c' hc' ↦ ?_,
          h.ready_lt⟩
        cases hc'
        exact hnext pc rfl
      | inr r =>
        refine ⟨h.cap_eq, htail, h.head_le, h.slots_le, h.stub, h.push, fun c' hc' ↦ ?_,
          fun call hcall i hi ↦ ?_⟩
        · cases hc'
        · rcases List.mem_append.mp hcall with hcall | hcall
          · exact h.ready_lt call hcall i hi
          · rw [List.mem_singleton] at hcall
            subst hcall
            exact hret i (congrArg Sum.inr hi)

/-- Whatever workers are pushed, in the queue already or not, the bounds are kept. -/
theorem InRange.step {a : Action} (h : InRange cap s) (ha : ∀ i, a = .push i → i < cap)
    (hstep : SyncSlotMap.step s a = some t) : InRange cap t := by
  cases move_of_step hstep with
  | push hp =>
    refine InRange.observe ⟨h.cap_eq, h.tail_le, h.head_le, h.slots_le, h.stub,
      h.pushing_update (ha _ rfl) fun pc hpc ↦ ?_, h.pop, h.ready_lt⟩
    cases hpc
    trivial
  | pushStep hp => exact (h.pushStep hp _).observe
  | pop hp =>
    refine InRange.observe ⟨h.cap_eq, h.tail_le, h.head_le, h.slots_le, h.stub, h.push,
      fun c hc ↦ ?_, h.ready_lt⟩
    cases hc
    trivial
  | popGoOn hc heq =>
    refine InRange.observe ?_
    simpa only [heq] using h.popStep hc
  | popReturn hc heq => simpa only [heq] using h.popStep hc

end ArcDischarge.SyncSlotMap
