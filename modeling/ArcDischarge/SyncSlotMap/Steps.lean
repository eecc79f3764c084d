import ArcDischarge.SyncSlotMap.Invariant

/-!
# The representation invariant is kept

Step by step: the three steps of a `push`, with the chain cut at its predecessor in between, and the
steps of a `pop`, with the `push` of the stub inside it. So the invariant holds in every state
reached under the contract of `push`.
-/

namespace ArcDischarge.SyncSlotMap

variable {cap : ℕ} {s : State} {l : List ℕ} {c : PopCall} {i : ℕ}

/-! ## Steps of `push` -/

theorem Inv.new (cap : ℕ) : Inv cap (.new cap) where
  cap_eq := rfl
  chained := by
    refine ⟨[cap], ?_, ?_, by simp [State.new], by simp [State.new]⟩
    · constructor <;> simp [State.new, Mem.new, Mem.len, State.linking]
    · simp [State.new, Mem.new, State.returned]
  observed := by simp [State.new]
  swaps_lt := by simp [State.new]
  calls := by simp [State.new]

theorem Inv.push (h : Inv cap s) (hp : s.pushing i = none) (hi : i < s.mem.cap)
    (hq : i ∉ s.queue) :
    Inv cap { s with pushing := Function.update s.pushing i (some .reset) }.observe := by
  obtain ⟨l, hl⟩ := h.chained
  have hlinking : ∀ j prev, s.linking j prev ↔
      State.linking { s with pushing := Function.update s.pushing i (some .reset) } j prev := by
    intro j prev
    by_cases hj : j = i
    · subst hj
      simp [State.linking, hp]
    · simp [State.linking, Function.update_of_ne hj]
  refine ⟨h.cap_eq, ⟨l, Chained.observe ⟨hl.linked.congr hlinking, hl.swaps, ?_, hl.pop⟩⟩, ?_,
    h.swaps_lt, h.calls⟩
  · intro j pc (hj : Function.update s.pushing i (some .reset) j = some pc)
    by_cases hji : j = i
    · subst hji
      rw [Function.update_self, Option.some.injEq] at hj
      subst hj
      exact ⟨hi, hl.not_mem hi hq⟩
    · rw [Function.update_of_ne hji] at hj
      exact hl.push j pc hj
  · intro c hc
    obtain ⟨c₀, hc₀, rfl⟩ := (State.observe_popping_eq_some _).mp hc
    exact Observed.observe (h.observed c₀ hc₀).quiet

/-- While a `push` is in progress, every `pop` in progress has noted it. -/
theorem Inv.overlapped (h : Inv cap s) (hl : Chained s l) {pc : PushPc}
    (hp : s.pushing i = some pc) (hc : s.popping = some c) : c.overlapped = true :=
  (h.observed c hc).push i (hl.push i pc hp).1 (by simp [hp])

/-- What is left to show for a step of `push(i)`: the memory's new chain, the pending link writes,
and that the other calls are undisturbed. A `pop` in progress has noted the overlap. -/
theorem Inv.pushStep_of (h : Inv cap s) (hl : Chained s l) {pc : PushPc} {m : Mem}
    {pc' : Option PushPc} {swaps : List ℕ} {l' : List ℕ} (hp : s.pushing i = some pc)
    (hcap : m.cap = s.mem.cap) (hlinked : Linked m (State.linking
      { s with mem := m, pushing := Function.update s.pushing i pc', swaps := swaps }) l')
    (hswaps : swaps = s.returned ++ l'.filter (· ≠ s.mem.cap))
    (hlt : ∀ j ∈ swaps, j < cap)
    (hown : ∀ q, pc' = some q → PushOk m l' i q)
    (hothers : ∀ j q, j ≠ i → PushOk s.mem l j q → PushOk m l' j q)
    (hpop : ∀ p, PopOk s.mem l true p → PopOk m l' true p) :
    Inv cap (State.observe
      { s with mem := m, pushing := Function.update s.pushing i pc', swaps := swaps }) := by
  have hi := (hl.push i pc hp).1
  refine ⟨hcap.trans h.cap_eq, ⟨l', Chained.observe ⟨hlinked, ?_, ?_, ?_⟩⟩, ?_, hlt, h.calls⟩
  · change swaps = s.returned ++ l'.filter (· ≠ m.cap)
    rw [hcap]
    exact hswaps
  · intro j q (hj : Function.update s.pushing i pc' j = some q)
    by_cases hji : j = i
    · subst hji
      rw [Function.update_self] at hj
      exact ⟨hcap ▸ hi, hown q hj⟩
    · rw [Function.update_of_ne hji] at hj
      obtain ⟨hjcap, hq⟩ := hl.push j q hj
      exact ⟨hcap ▸ hjcap, hothers j q hji hq⟩
  · intro c hc
    have ho : c.overlapped = true := h.overlapped hl hp hc
    have hok : PopOk s.mem l c.overlapped c.pc := hl.pop c hc
    rw [ho] at hok ⊢
    exact hpop c.pc hok
  · intro c hc
    obtain ⟨c₀, hc₀, rfl⟩ := (State.observe_popping_eq_some _).mp hc
    refine Observed.observe fun hfalse ↦ ?_
    rw [h.overlapped hl hp hc₀] at hfalse
    exact absurd hfalse (by simp)

theorem Inv.pushStep_reset (h : Inv cap s) (hp : s.pushing i = some .reset) :
    Inv cap (State.observe { s with
      mem := { s.mem with slots := Function.update s.mem.slots i s.mem.len }
      pushing := Function.update s.pushing i (some .swap) }) := by
  obtain ⟨l, hl⟩ := h.chained
  obtain ⟨hi, hmem⟩ := hl.push i _ hp
  refine h.pushStep_of hl hp rfl ((hl.linked.reset hmem).congr fun j prev ↦ ?_) hl.swaps h.swaps_lt
    ?_ (fun j q _ hq ↦ hq.reset) (fun p hok ↦ hok.reset fun he ↦ hmem (he ▸ hl.linked.tail_mem))
  · by_cases hj : j = i
    · subst hj
      simp [State.linking, hp]
    · simp [State.linking, Function.update_of_ne hj]
  · rintro q ⟨rfl⟩
    exact ⟨hmem, Function.update_self ..⟩

theorem Inv.pushStep_swap (h : Inv cap s) (hp : s.pushing i = some .swap) :
    Inv cap (State.observe { s with
      mem := { s.mem with head := i }
      pushing := Function.update s.pushing i (some (.link s.mem.head))
      swaps := s.swaps ++ [i] }) := by
  obtain ⟨l, hl⟩ := h.chained
  obtain ⟨hi, hmem, hslot⟩ := hl.push i _ hp
  have hlinked := hl.linked.swap hmem hi.le hslot
  refine h.pushStep_of hl hp rfl (hlinked.congr fun j prev ↦ ?_) ?_ ?_ (fun q _ ↦ ?_)
    (fun j q hj hq ↦ hq.swap hj) (fun p hok ↦ hok.swap hi.ne')
  · by_cases hj : j = i
    · subst hj
      simp [State.linking, hp, hi.ne, eq_comm]
    · simp [State.linking, hj]
  · rw [hl.swaps, List.filter_append, List.append_assoc]
    simp [hi.ne]
  · intro j hj
    rcases List.mem_append.mp hj with hj | hj
    · exact h.swaps_lt j hj
    · exact List.mem_singleton.mp hj ▸ h.cap_eq ▸ hi
  · rename_i hq
    cases hq
    trivial

theorem Inv.pushStep_link (h : Inv cap s) {prev : ℕ} (hp : s.pushing i = some (.link prev)) :
    Inv cap (State.observe { s with
      mem := { s.mem with slots := Function.update s.mem.slots prev i }
      pushing := Function.update s.pushing i none }) := by
  obtain ⟨l, hl⟩ := h.chained
  have hi := (hl.push i _ hp).1
  have hF : s.linking i prev := Or.inl hp
  obtain ⟨hadj, hslot⟩ := hl.linked.pending _ _ hF
  refine h.pushStep_of hl hp rfl ((hl.linked.link hF).congr fun j q ↦ ?_) hl.swaps h.swaps_lt
    (by simp) (fun j q _ hq ↦ hq.link hadj.mem_left)
    (fun p hok ↦ hok.link hadj.mem_left hslot)
  by_cases hj : j = i
  · subst hj
    simp [State.linking, hp, hi.ne, eq_comm]
  · simp [State.linking, hj]

theorem Inv.pushStep (h : Inv cap s) {pc : PushPc} (hp : s.pushing i = some pc) :
    Inv cap (State.observe { s with
      mem := (s.mem.push i pc).1
      pushing := Function.update s.pushing i (s.mem.push i pc).2
      swaps := if pc = PushPc.swap then s.swaps ++ [i] else s.swaps }) := by
  obtain ⟨l, hl⟩ := h.chained
  obtain ⟨hi, hok⟩ := hl.push i pc hp
  have hlen : i < s.mem.len := Nat.lt_succ_of_lt hi
  cases pc with
  | reset => simpa [Mem.push, Mem.store, hlen] using h.pushStep_reset hp
  | swap => simpa [Mem.push] using h.pushStep_swap hp
  | link prev =>
    have hprev : prev < s.mem.len := hl.linked.lt_len (hl.linked.pending _ _ (Or.inl hp)).1.mem_left
    simpa [Mem.push, Mem.store, hprev] using h.pushStep_link hp
  | panicked => exact absurd hok id

/-! ## Steps of `pop` -/

/-- The program counters at which the stub's link write is not pending. -/
def PopPc.unlinked : PopPc → Prop
  | .pushStub _ (.link _) => False
  | _ => True

theorem State.linking_iff (hc : s.popping = some c) (hpc : c.pc.unlinked) {j prev : ℕ} :
    s.linking j prev ↔ s.pushing j = some (.link prev) := by
  refine or_iff_left ?_
  rintro ⟨-, c', hc', t, ht⟩
  rw [hc, Option.some.injEq] at hc'
  rw [hc', ht] at hpc
  exact hpc

theorem State.linking_set {m : Mem} (pc : PopPc) (hpc : pc.unlinked) {j prev : ℕ} :
    State.linking { s with mem := m, popping := some { c with pc := pc } } j prev ↔
      s.pushing j = some (.link prev) := State.linking_iff rfl hpc

theorem Inv.pop (h : Inv cap s) (hp : s.popping = none) :
    Inv cap (State.observe { s with popping := some ⟨.start, s.queue, false, false⟩ }) := by
  obtain ⟨l, hl⟩ := h.chained
  refine ⟨h.cap_eq, ⟨l, Chained.observe
    ⟨hl.linked.congr fun j prev ↦ ?_, hl.swaps, hl.push, ?_⟩⟩, ?_, h.swaps_lt, h.calls⟩
  · simp [State.linking, hp]
  · rintro c ⟨rfl⟩
    trivial
  · intro c hc
    obtain ⟨c₀, ⟨rfl⟩, rfl⟩ := (State.observe_popping_eq_some _).mp hc
    exact Observed.observe fun _ ↦ rfl

/-- What is left to show for a step inside `pop()`. -/
theorem Inv.popStep_of (h : Inv cap s) (hl : Chained s l) (hc : s.popping = some c) {m : Mem}
    {pc : PopPc} {l' : List ℕ} (hcap : m.cap = s.mem.cap)
    (hlinked : Linked m (State.linking { s with mem := m, popping := some { c with pc := pc } }) l')
    (hswaps : l'.filter (· ≠ s.mem.cap) = l.filter (· ≠ s.mem.cap))
    (hpush : ∀ j q, j < s.mem.cap → PushOk s.mem l j q → PushOk m l' j q)
    (hpop : PopOk m l' c.overlapped pc) :
    Inv cap (State.observe { s with mem := m, popping := some { c with pc := pc } }) := by
  refine ⟨hcap.trans h.cap_eq, ⟨l', Chained.observe ⟨hlinked, ?_, ?_, ?_⟩⟩, ?_, h.swaps_lt,
    h.calls⟩
  · change s.swaps = s.returned ++ l'.filter (· ≠ m.cap)
    rw [hcap, hswaps]
    exact hl.swaps
  · intro j q hj
    obtain ⟨hjcap, hq⟩ := hl.push j q hj
    exact ⟨hcap ▸ hjcap, hpush j q hjcap hq⟩
  · rintro c' ⟨rfl⟩
    exact hpop
  · intro c' hc'
    obtain ⟨c₀, ⟨rfl⟩, rfl⟩ := (State.observe_popping_eq_some _).mp hc'
    exact Observed.observe (h.observed c hc).quiet

/-- The common case: the memory is unchanged, and no stub link is pending. -/
theorem Inv.popStep_same (h : Inv cap s) (hl : Chained s l) (hc : s.popping = some c) {pc : PopPc}
    (hold : c.pc.unlinked) (hnew : pc.unlinked) (hpop : PopOk s.mem l c.overlapped pc) :
    Inv cap (State.observe { s with popping := some { c with pc := pc } }) := by
  refine h.popStep_of hl hc rfl (hl.linked.congr fun j prev ↦ ?_) rfl (fun _ _ _ hq ↦ hq) hpop
  exact (State.linking_iff hc hold).trans (State.linking_set pc hnew).symm

/-- What is left to show for the return of `pop()`. -/
theorem Inv.popReturn_of (h : Inv cap s) (hl : Chained s l) (hc : s.popping = some c)
    (hpc : c.pc.unlinked) {m : Mem} {r : ReadySlot} {l' : List ℕ} (hcap : m.cap = s.mem.cap)
    (hlinked : Linked m s.linking l')
    (hswaps : s.swaps = State.returned { s with
      calls := s.calls ++ [⟨r, c.atStart, c.sawEmpty, c.overlapped⟩] }
        ++ l'.filter (· ≠ s.mem.cap))
    (hpush : ∀ j q, j < s.mem.cap → PushOk s.mem l j q → PushOk m l' j q)
    (hcall : CallOk ⟨r, c.atStart, c.sawEmpty, c.overlapped⟩) :
    Inv cap { s with
      mem := m
      popping := none
      calls := s.calls ++ [⟨r, c.atStart, c.sawEmpty, c.overlapped⟩] } := by
  refine ⟨hcap.trans h.cap_eq, ⟨l', hlinked.congr fun j prev ↦ ?_, ?_, ?_, ?_⟩, ?_, h.swaps_lt, ?_⟩
  · rw [State.linking_iff hc hpc]
    simp [State.linking]
  · exact hswaps.trans (by rw [hcap]; rfl)
  · intro j q hj
    obtain ⟨hjcap, hq⟩ := hl.push j q hj
    exact ⟨hcap ▸ hjcap, hpush j q hjcap hq⟩
  · intro c' hc'
    cases hc'
  · intro c' hc'
    cases hc'
  · intro r' hr'
    rcases List.mem_append.mp hr' with hr' | hr'
    · exact h.calls r' hr'
    · exact List.mem_singleton.mp hr' ▸ hcall

/-- The index a `pop` takes out of the queue, if any. -/
def ReadySlot.taken : ReadySlot → List ℕ
  | .ready i => [i]
  | .inconsistent | .none => []

theorem State.returned_append_call (s : State) (r : PopReturn) :
    State.returned { s with calls := s.calls ++ [r] } = s.returned ++ r.result.taken := by
  rw [State.returned, State.returned, List.filterMap_append]
  cases hr : r.result <;> simp [hr, ReadySlot.taken]

/-- A return without a result leaves the memory and the queue as they are. -/
theorem Inv.popReturn_nothing (h : Inv cap s) (hl : Chained s l) (hc : s.popping = some c)
    (hpc : c.pc.unlinked) {r : ReadySlot} (hr : r = .none ∨ r = .inconsistent)
    (hcall : CallOk ⟨r, c.atStart, c.sawEmpty, c.overlapped⟩) :
    Inv cap { s with
      popping := none
      calls := s.calls ++ [⟨r, c.atStart, c.sawEmpty, c.overlapped⟩] } := by
  refine h.popReturn_of hl hc hpc rfl hl.linked ?_ (fun _ _ _ hq ↦ hq) hcall
  rw [State.returned_append_call, hl.swaps]
  rcases hr with rfl | rfl <;> simp [ReadySlot.taken]

/-- A return of the tail takes the first worker out of the queue. -/
theorem Inv.popReturn_ready (h : Inv cap s) (hl : Chained s l) (hc : s.popping = some c)
    (hpc : c.pc.unlinked) {next : ℕ} (htail : s.mem.tail ≠ s.mem.cap)
    (hslot : s.mem.slots s.mem.tail = next) (hnext : next ≤ s.mem.cap) :
    Inv cap { s with
      mem := { s.mem with tail := next }
      popping := none
      calls := s.calls ++ [⟨.ready s.mem.tail, c.atStart, c.sawEmpty, c.overlapped⟩] } := by
  obtain ⟨r, rfl⟩ := hl.linked.eq_cons_cons hslot hnext
  have hfilter : (s.mem.tail :: next :: r).filter (· ≠ s.mem.cap)
      = s.mem.tail :: (next :: r).filter (· ≠ s.mem.cap) := List.filter_cons_of_pos (by simpa)
  refine h.popReturn_of hl hc hpc rfl (hl.linked.advance hslot hnext) ?_
    (fun j q _ hq ↦ hq.advance) ⟨by simp, fun ho ↦ ?_⟩
  · rw [State.returned_append_call, hl.swaps, hfilter, List.append_assoc]
    rfl
  · -- with no overlap the queue is the one the call began with
    rw [← (h.observed c hc).quiet ho, hl.queue_eq, hfilter]

/-- The two places where `pop` tests the link of a tail that is not the stub. -/
theorem Inv.popStep_test (h : Inv cap s) (hl : Chained s l) (hc : s.popping = some c)
    (hpc : ∀ t p, c.pc ≠ .pushStub t p) (htail : s.mem.tail ≠ s.mem.cap) :
    Inv cap (State.observe { s with popping := some { c with
      pc := s.mem.test s.mem.tail (s.mem.slots s.mem.tail) } }) := by
  have hold : c.pc.unlinked := by
    cases hpc' : c.pc with
    | pushStub t p => exact absurd hpc' (hpc t p)
    | _ => trivial
  rw [Mem.test]
  split
  · rename_i hle
    exact h.popStep_same hl hc hold trivial ⟨rfl, htail, rfl, hle⟩
  · rename_i hle
    refine h.popStep_same hl hc hold trivial ⟨rfl, htail, ?_⟩
    rcases hl.linked.eq_singleton_or_pending (Nat.lt_of_not_le hle) with hsingle | ⟨b, hb⟩
    · exact Or.inr hsingle
    · exact Or.inl ((h.observed c hc).of_linking hl hc hpc hb)

theorem Inv.popStep_skipStub (h : Inv cap s) (hl : Chained s l) (hc : s.popping = some c) {next : ℕ}
    (hpc : c.pc = .skipStub next) : Inv cap (State.observe { s with
      mem := { s.mem with tail := next }, popping := some { c with pc := .loadNext next } }) := by
  have hok := hl.pop c hc
  rw [hpc] at hok
  obtain ⟨hstub, hslot, hnext⟩ := hok
  obtain ⟨r, rfl⟩ := hl.linked.eq_cons_cons hslot hnext
  have hne : next ≠ s.mem.cap := by
    rintro rfl
    exact (List.nodup_cons.mp hl.linked.nodup).1 (by rw [hstub]; exact List.mem_cons_self)
  refine h.popStep_of hl hc rfl ((hl.linked.advance hslot hnext).congr fun j prev ↦ ?_) ?_
    (fun j q _ hq ↦ hq.advance) ⟨rfl, hne⟩
  · exact (State.linking_iff hc (by rw [hpc]; trivial)).trans
      (State.linking_set (.loadNext next) trivial).symm
  · exact (List.filter_cons_of_neg (by simp [hstub])).symm

theorem Inv.popStep_pushStub (h : Inv cap s) (hl : Chained s l) (hc : s.popping = some c) {t : ℕ}
    {p : PushPc} (hpc : c.pc = .pushStub t p) :
    Inv cap (match s.mem.push s.mem.cap p with
      | (m, some p') => State.observe
          { s with mem := m, popping := some { c with pc := .pushStub t p' } }
      | (m, none) => State.observe
          { s with mem := m, popping := some { c with pc := .reload t } }) := by
  have hok := hl.pop c hc
  rw [hpc] at hok
  obtain ⟨htail, hstub, hp, hchain⟩ := hok
  have hlen : s.mem.cap < s.mem.len := Nat.lt_succ_self _
  cases p with
  | reset =>
    simp only [Mem.push, Mem.store, hlen, if_true]
    have hne : s.mem.tail ≠ s.mem.cap := htail ▸ hstub
    refine h.popStep_of hl hc rfl ((hl.linked.reset hp).congr fun j prev ↦ ?_) rfl
      (fun j q _ hq ↦ hq.reset) ⟨htail, hstub, ⟨hp, Function.update_self ..⟩, hchain⟩
    exact (State.linking_iff hc (by rw [hpc]; trivial)).trans
      (State.linking_set (.pushStub t .swap) trivial).symm
  | swap =>
    -- the stub goes behind whatever was pushed since `pop` looked at the head
    simp only [Mem.push]
    refine h.popStep_of hl hc rfl ((hl.linked.swap hp.1 le_rfl hp.2).congr fun j prev ↦ ?_) ?_
      (fun j q hj hq ↦ hq.swap hj.ne) ⟨htail, hstub, trivial, hchain.imp_right fun he ↦ ?_⟩
    · rw [State.linking_iff hc (by rw [hpc]; trivial)]
      simp [State.linking, eq_comm]
    · simp [List.filter_append]
    · rw [he]
      rfl
  | link prev =>
    have hF : s.linking s.mem.cap prev := Or.inr ⟨rfl, c, hc, t, hpc⟩
    obtain ⟨hadj, hslot⟩ := hl.linked.pending _ _ hF
    have hprev : prev < s.mem.len := hl.linked.lt_len hadj.mem_left
    simp only [Mem.push, Mem.store, hprev, if_true]
    refine h.popStep_of hl hc rfl ((hl.linked.link hF).congr fun j q ↦ ?_) rfl
      (fun j q _ hq ↦ hq.link hadj.mem_left) ⟨htail, hstub, hchain.imp_right fun he ↦ ⟨he, ?_⟩⟩
    -- the stub's link is written, and those of the pushes stay pending
    · refine Iff.trans ?_ (State.linking_set (.reload t) trivial).symm
      constructor
      · rintro ⟨hj, hne⟩
        refine hj.resolve_right ?_
        rintro ⟨rfl, c', hc', t', ht'⟩
        rw [hc, Option.some.injEq] at hc'
        rw [← hc', hpc, PopPc.pushStub.injEq, PushPc.link.injEq] at ht'
        exact hne ⟨rfl, ht'.2.symm⟩
      · intro hj
        refine ⟨Or.inl hj, ?_⟩
        rintro ⟨rfl, -⟩
        exact absurd (hl.push _ _ hj).1 (lt_irrefl _)
    · -- the only link of the chain `[t, cap]` is the one just written
      have hpt : prev = t := by
        rw [he] at hadj
        rcases Adjacent.cons_iff.mp hadj with ⟨rfl, -⟩ | hadj
        · rfl
        · simp at hadj
      subst hpt
      exact Function.update_self ..
  | panicked => exact absurd hp id

theorem Inv.popStep (h : Inv cap s) (hc : s.popping = some c) :
    Inv cap (match s.mem.pop c.pc with
      | (m, .inl pc) => State.observe { s with mem := m, popping := some { c with pc := pc } }
      | (m, .inr r) =>
        { s with mem := m
                 popping := none
                 calls := s.calls ++ [⟨r, c.atStart, c.sawEmpty, c.overlapped⟩] }) := by
  obtain ⟨l, hl⟩ := h.chained
  have ho := h.observed c hc
  have hok := hl.pop c hc
  have hload : s.mem.load s.mem.tail = some (s.mem.slots s.mem.tail) :=
    if_pos hl.linked.tail_lt_len
  cases hpc : c.pc with
  | start =>
    have hnot : ∀ t p, c.pc ≠ .pushStub t p := by simp [hpc]
    simp only [Mem.pop, hload]
    split_ifs with htail hnext
    · -- `None`: the stub is alone, or its link is pending
      refine h.popReturn_nothing hl hc (by rw [hpc]; trivial) (Or.inl rfl) ⟨fun _ ↦ ?_, fun hf ↦ ?_⟩
      all_goals rcases hl.linked.eq_singleton_or_pending (by omega) with hsingle | ⟨b, hb⟩
      · exact Or.inl (ho.empty (by rw [hl.queue_eq, hsingle]; simp [htail]))
      · exact Or.inr (ho.of_linking hl hc hnot hb)
      · rw [← ho.quiet hf, hl.queue_eq, hsingle]
        simp [htail]
      · exact absurd (ho.of_linking hl hc hnot hb) (by simpa using hf)
    · exact h.popStep_same hl hc (by rw [hpc]; trivial) trivial ⟨htail, rfl, by omega⟩
    · exact h.popStep_test hl hc hnot htail
  | skipStub next => exact h.popStep_skipStub hl hc hpc
  | loadNext t =>
    rw [hpc] at hok
    obtain ⟨rfl, htail⟩ := hok
    simp only [Mem.pop, hload]
    exact h.popStep_test hl hc (by simp [hpc]) htail
  | advance t next =>
    rw [hpc] at hok
    obtain ⟨rfl, htail, hslot, hnext⟩ := hok
    simp only [Mem.pop, if_neg htail]
    exact h.popReturn_ready hl hc (by rw [hpc]; trivial) htail hslot hnext
  | loadHead t =>
    rw [hpc] at hok
    obtain ⟨rfl, htail, hchain⟩ := hok
    simp only [Mem.pop]
    split_ifs with hhead
    · -- a second node: it was appended after the link was read, or before, with a pending link
      have hover : c.overlapped = true := by
        refine hchain.resolve_right fun hsingle ↦ hhead ?_
        have hlast := hl.linked.last
        rw [hsingle] at hlast
        simpa using hlast.symm
      exact h.popReturn_nothing hl hc (by rw [hpc]; trivial) (Or.inr rfl)
        ⟨fun _ ↦ Or.inr hover, fun hf ↦ by simp [hover] at hf⟩
    · have hsingle := hl.linked.eq_singleton_of_head_eq (not_not.mp hhead)
      refine h.popStep_same hl hc (by rw [hpc]; trivial) trivial ⟨rfl, htail, ?_, Or.inr hsingle⟩
      rw [PushOk, hsingle]
      simpa using htail.symm
  | pushStub t p =>
    have := h.popStep_pushStub hl hc hpc
    simp only [Mem.pop]
    split at this <;> rename_i heq <;> simpa only [heq] using this
  | reload t =>
    rw [hpc] at hok
    obtain ⟨rfl, htail, hchain⟩ := hok
    simp only [Mem.pop, hload]
    split_ifs with hnext
    · exact h.popStep_same hl hc (by rw [hpc]; trivial) trivial ⟨rfl, htail, rfl, hnext⟩
    -- no link, though the stub is behind the tail: somebody else was pushed in between
    · have hover : c.overlapped = true :=
        hchain.resolve_right fun hcap ↦ hnext (hcap.2 ▸ le_rfl)
      exact h.popReturn_nothing hl hc (by rw [hpc]; trivial) (Or.inr rfl)
        ⟨fun _ ↦ Or.inr hover, fun hf ↦ by simp [hover] at hf⟩
  | finish t next =>
    rw [hpc] at hok
    obtain ⟨rfl, htail, hslot, hnext⟩ := hok
    exact h.popReturn_ready hl hc (by rw [hpc]; trivial) htail hslot hnext
  | panicked =>
    rw [hpc] at hok
    exact absurd hok id

/-! ## Every reachable state -/

theorem Inv.step {t : State} {a : Action} (h : Inv cap s) (ha : Fresh s a)
    (hstep : SyncSlotMap.step s a = some t) : Inv cap t := by
  cases move_of_step hstep with
  | push hp => exact h.push hp ha.1 ha.2
  | pushStep hp => exact h.pushStep hp
  | pop hp => exact h.pop hp
  | popGoOn hc heq => simpa only [heq] using h.popStep hc
  | popReturn hc heq => simpa only [heq] using h.popStep hc

theorem inv_of_reachable (h : (machine cap).ReachableUnder Fresh s) : Inv cap s :=
  h.invariant (fun _ hs ↦ hs ▸ Inv.new cap) fun _ _ _ _ hI ha hstep ↦ hI.step ha hstep

theorem Inv.returned_append_queue (h : Inv cap s) : s.returned ++ s.queue = s.swaps := by
  obtain ⟨l, hl⟩ := h.chained
  rw [hl.queue_eq, hl.swaps]

theorem Inv.nodup_queue (h : Inv cap s) : s.queue.Nodup := by
  obtain ⟨l, hl⟩ := h.chained
  rw [hl.queue_eq]
  exact hl.linked.nodup.filter _

end ArcDischarge.SyncSlotMap
