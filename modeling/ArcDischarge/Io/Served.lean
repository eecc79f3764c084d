import ArcDischarge.Io.Coherence
import ArcDischarge.Io.Waiters

/-!
# How far `wake` has come

The invariant behind the absence of lost wake-ups. As long as a node is linked, no event since its
re-check has been through the list; once it is removed, its waker has been woken, or is in the array
of a `wake` that has not returned. The same holds of the direction slots. What makes it inductive is
that a future between its re-check and its `push_front` holds the lock, so that no `wake` can finish
its way through the list in between.
-/

namespace ArcDischarge.Io

/-- Entry `i` is an event. -/
def IsEvent (log : List Entry) (i : ℕ) : Prop := ∃ turn ready, log[i]? = some (.set turn ready)

/-- Entry `i` is an event with a flag of `mask`. -/
def Matches (log : List Entry) (mask : Ready) (i : ℕ) : Prop :=
  ∃ turn ready, log[i]? = some (.set turn ready) ∧ ready.Meets mask

/-- No matching event since the re-check comes before entry `n`. -/
def Since (log : List Entry) (mask : Ready) (g : Stored) (n : ℕ) : Prop :=
  ∀ i, Matches log mask i → g.recheck ≤ i → n ≤ i

/-- Every flag of `mask` that an event before entry `n` had set was removed before entry `n`, by a
clear that found it set. -/
def Answered (log : List Entry) (mask : Ready) (n : ℕ) : Prop :=
  ∀ i turn ready b, log[i]? = some (.set turn ready) → i < n → b ∈ ready → b ∈ mask →
    ∃ j removed, i < j ∧ j < n ∧ log[j]? = some (.clear removed) ∧ b ∈ removed ∧
      b ∈ readiness (log.take j)

/-- What is known of a waker from the moment it is stored. -/
structure Registered (m : Shared) (mask : Ready) (g : Stored) : Prop where
  wakes : g.wakes ≤ m.woken.length
  recheck : g.recheck ≤ m.log.length
  answered : Answered m.log mask g.recheck

/-- The waker has been woken since it was stored, or is about to be. -/
def Called (m : Shared) (mask : Ready) (g : Stored) : Prop :=
  g.waker ∈ m.woken.drop g.wakes ∨ g.waker ∈ m.wakers ∧ Since m.log mask g m.returned

structure Served (interest : ℕ → Interest) (m : Shared) : Prop where
  returned_le_listDone : m.returned ≤ m.listDone
  returned_le_slotsDone : m.returned ≤ m.slotsDone
  listDone_le : m.listDone ≤ m.log.length
  slotsDone_le : m.slotsDone ≤ m.log.length
  registered : ∀ k, m.node k ≠ .new → Registered m (.fromInterest (interest k)) (m.stored k)
  linked : ∀ k waker, m.node k = .linked waker → (m.stored k).waker = waker ∧
    Since m.log (.fromInterest (interest k)) (m.stored k) m.listDone
  removed : ∀ k, m.node k = .removed → Called m (.fromInterest (interest k)) (m.stored k)
  caller : ∀ d g, m.caller d = some g → g.pending = true → Registered m d.mask g.stored ∧
    (m.slot d = some g.stored.waker ∧ Since m.log d.mask g.stored m.slotsDone ∨
      Called m d.mask g.stored)

/-- How far the driver is with the events in the log. -/
def DriverAt (m : Shared) : Pc → Prop
  | .idle | .setLoad _ | .setExchange _ _ =>
    m.wakers = [] ∧ ∀ i, IsEvent m.log i → i < m.slotsDone
  | .wakeLock event ready | .takeSlots event ready =>
    m.wakers = [] ∧ (∃ turn, m.log[event]? = some (.set turn ready)) ∧ m.slotsDone ≤ event ∧
      ∀ i, IsEvent m.log i → i < m.slotsDone ∨ i = event
  | .scan event _ | .drain event _ =>
    event < m.log.length ∧ m.slotsDone = event + 1 ∧ ∀ i, IsEvent m.log i → i < m.slotsDone
  | .finish event =>
    m.listDone = event + 1 ∧ m.slotsDone = event + 1 ∧ ∀ i, IsEvent m.log i → i < m.slotsDone
  | _ => True

structure At (interest : ℕ → Interest) (i : Agent) (m : Shared) (p : Pc) : Prop where
  driver : i = .driver → DriverAt m p
  register : ∀ k waker n, i = .future k → p = .register waker n → n ≤ m.log.length ∧
    m.listDone ≤ n ∧ Answered m.log (.fromInterest (interest k)) n
  recheck : ∀ k d, i = .thread k → p = .callRecheck d → ∃ waker n, m.slot d = some waker ∧
    m.caller d = some ⟨k, ⟨waker, n, 0⟩, false⟩ ∧ n ≤ m.woken.length

/-! ## Longer logs -/

variable {interest : ℕ → Interest} {m m' : Shared} {p p' q : Pc} {a : Label} {i j : Agent}
  {log : List Entry} {mask : Ready} {g : Stored} {n : ℕ}

theorem IsEvent.lt {i : ℕ} (h : IsEvent log i) : i < log.length := by
  obtain ⟨turn, ready, h⟩ := h
  exact (List.getElem?_eq_some_iff.mp h).1

theorem Matches.isEvent {i : ℕ} (h : Matches log mask i) : IsEvent log i := by
  obtain ⟨turn, ready, h, -⟩ := h
  exact ⟨turn, ready, h⟩

theorem isEvent_of_append {i : ℕ} {e : Entry} (h : IsEvent (log ++ [e]) i) :
    IsEvent log i ∨ i = log.length ∧ e.turn?.isSome := by
  have hlt := h.lt
  obtain ⟨turn, ready, h⟩ := h
  rw [List.length_append, List.length_singleton] at hlt
  by_cases hi : i < log.length
  · exact Or.inl ⟨turn, ready, by rwa [List.getElem?_append_left hi] at h⟩
  · have heq : i = log.length := by omega
    subst heq
    rw [List.getElem?_concat_length, Option.some.injEq] at h
    subst h
    exact Or.inr ⟨rfl, rfl⟩

theorem matches_of_append {i : ℕ} {e : Entry} (h : Matches (log ++ [e]) mask i) :
    Matches log mask i ∨ i = log.length := by
  obtain ⟨turn, ready, h, hmeets⟩ := h
  by_cases hi : i < log.length
  · exact Or.inl ⟨turn, ready, by rwa [List.getElem?_append_left hi] at h, hmeets⟩
  · have := (List.getElem?_eq_some_iff.mp h).1
    rw [List.length_append, List.length_singleton] at this
    exact Or.inr (by omega)

theorem Since.append {e : Entry} (h : Since log mask g n) (hn : n ≤ log.length) :
    Since (log ++ [e]) mask g n := by
  intro i hi hrecheck
  rcases matches_of_append hi with hi | rfl
  · exact h i hi hrecheck
  · exact hn

theorem Answered.append {e : Entry} (h : Answered log mask n) (hn : n ≤ log.length) :
    Answered (log ++ [e]) mask n := by
  intro i turn ready b hi hlt hb hmask
  rw [List.getElem?_append_left (by omega)] at hi
  obtain ⟨j, removed, hij, hjn, hj, hremoved, hset⟩ := h i turn ready b hi hlt hb hmask
  exact ⟨j, removed, hij, hjn, by rwa [List.getElem?_append_left (by omega)], hremoved,
    by rwa [List.take_append_of_le_length (by omega)]⟩

/-- A re-check that sees no flag of `mask` has had all of them answered. -/
theorem answered_of_holds {w : Word} (h : w.Holds log)
    (hempty : ∀ b, b ∈ mask → b ∉ w.readiness) : Answered log mask log.length := by
  intro i turn ready b hi _ hb hmask
  have hgone : b ∉ readiness log := h.readiness ▸ hempty b hmask
  obtain ⟨j, removed, hij, hj, hremoved, hset⟩ := exists_clear_of_not_mem hi hb hgone
  exact ⟨j, removed, hij, (List.getElem?_eq_some_iff.mp hj).1, hj, hremoved, hset⟩

/-! ## What the steps preserve -/

theorem Registered.of_le (h : Registered m mask g) (hlog : m'.log = m.log)
    (hwoken : m.woken.length ≤ m'.woken.length) : Registered m' mask g where
  wakes := Nat.le_trans h.wakes hwoken
  recheck := hlog ▸ h.recheck
  answered := hlog ▸ h.answered

/-- An exchange on the word. -/
theorem Served.append (h : Served interest m) (word : Word) (e : Entry) :
    Served interest { m with word, log := m.log ++ [e] } := by
  have hlist := h.listDone_le
  have hslots := h.slotsDone_le
  have hreturned := h.returned_le_listDone
  have hregistered {mask : Ready} {g : Stored} (hg : Registered m mask g) :
      Registered { m with word, log := m.log ++ [e] } mask g :=
    ⟨hg.wakes, Nat.le_trans hg.recheck (by simp), hg.answered.append hg.recheck⟩
  have hcalled {mask : Ready} {g : Stored} (hg : Called m mask g) :
      Called { m with word, log := m.log ++ [e] } mask g :=
    hg.imp_right fun hg ↦ ⟨hg.1, hg.2.append (by omega)⟩
  refine ⟨hreturned, h.returned_le_slotsDone, ?_, ?_, fun k hk ↦ hregistered (h.registered k hk),
    fun k waker hk ↦ ?_, fun k hk ↦ hcalled (h.removed k hk), fun d g hg hpending ↦ ?_⟩
  · exact Nat.le_trans hlist (by simp)
  · exact Nat.le_trans hslots (by simp)
  · obtain ⟨hwaker, hsince⟩ := h.linked k waker hk
    exact ⟨hwaker, hsince.append hlist⟩
  · obtain ⟨hg, hslot⟩ := h.caller d g hg hpending
    exact ⟨hregistered hg, hslot.imp (fun hs ↦ ⟨hs.1, hs.2.append hslots⟩) hcalled⟩

/-- A waker of the array is woken. -/
theorem Served.wakeOne {waker : Waker} {rest : List Waker} (h : Served interest m)
    (hwakers : m.wakers = waker :: rest) : Served interest (m.wakeOne waker rest) := by
  have hregistered {mask : Ready} {g : Stored} (hg : Registered m mask g) :
      Registered (m.wakeOne waker rest) mask g := hg.of_le rfl (by simp [Shared.wakeOne])
  have hcalled {mask : Ready} {g : Stored} (hreg : Registered m mask g) (hg : Called m mask g) :
      Called (m.wakeOne waker rest) mask g := by
    have hdrop : (m.wakeOne waker rest).woken.drop g.wakes = m.woken.drop g.wakes ++ [waker] :=
      List.drop_append_of_le_length hreg.wakes
    rw [Called, hdrop, List.mem_append, List.mem_singleton]
    rcases hg with hg | ⟨hmem, hsince⟩
    · exact Or.inl (Or.inl hg)
    · rw [hwakers, List.mem_cons] at hmem
      rcases hmem with heq | hmem
      · exact Or.inl (Or.inr heq)
      · exact Or.inr ⟨hmem, hsince⟩
  refine ⟨h.returned_le_listDone, h.returned_le_slotsDone, h.listDone_le, h.slotsDone_le,
    fun k hk ↦ hregistered (h.registered k hk), h.linked, fun k hk ↦ ?_, fun d g hg hpending ↦ ?_⟩
  · have hnode : m.node k ≠ .new := by simp [show m.node k = .removed from hk]
    exact hcalled (h.registered k hnode) (h.removed k hk)
  · obtain ⟨hg, hslot⟩ := h.caller d g hg hpending
    exact ⟨hregistered hg, hslot.imp id (hcalled hg)⟩

/-- An event takes the wakers of its slots. -/
theorem Served.takeSlots {event : ℕ} {ready : Ready} (h : Served interest m)
    (hat : DriverAt m (.takeSlots event ready)) :
    Served interest { m with wakers := m.takenWakers ready
                             slot := fun d ↦ if d.wokenBy ready then none else m.slot d
                             slotsDone := event + 1 } := by
  obtain ⟨hwakers, ⟨turn, hevent⟩, hslots, hevents⟩ := hat
  have hcalled {mask : Ready} {g : Stored} (hg : Called m mask g) :
      g.waker ∈ m.woken.drop g.wakes := hg.resolve_right fun hg ↦ by simp [hwakers] at hg
  have hlt := (List.getElem?_eq_some_iff.mp hevent).1
  have hreturned := h.returned_le_slotsDone
  refine ⟨h.returned_le_listDone, Nat.le_trans hreturned (Nat.le_succ_of_le hslots), h.listDone_le,
    hlt,
    fun k hk ↦ (h.registered k hk).of_le rfl (Nat.le_refl _), h.linked,
    fun k hk ↦ Or.inl (hcalled (h.removed k hk)), fun d g hg hpending ↦ ?_⟩
  obtain ⟨hg, hslot⟩ := h.caller d g hg hpending
  refine ⟨hg.of_le rfl (Nat.le_refl _), ?_⟩
  rcases hslot with ⟨hslot, hsince⟩ | hslot
  · by_cases hwoken : d.wokenBy ready = true
    · -- taken: the waker is in the array, and the events it waits for are not behind `returned`
      refine Or.inr (Or.inr ⟨?_, fun i hi hrecheck ↦ Nat.le_trans hreturned (hsince i hi hrecheck)⟩)
      cases d with
      | read =>
        have hreadable : ready.isReadable = true := hwoken
        simp [Shared.takenWakers, hreadable, hslot]
      | write =>
        have hwritable : ready.isWritable = true := hwoken
        simp [Shared.takenWakers, hwritable, hslot]
    · refine Or.inl ⟨by simp [hwoken, hslot], fun i hi hrecheck ↦ ?_⟩
      rcases hevents i hi.isEvent with hold | rfl
      · exact absurd (hsince i hi hrecheck) (by omega)
      · -- the event itself does not match
        obtain ⟨turn', ready', hentry, hmeets⟩ := hi
        have heq := hentry.symm.trans hevent
        simp only [Option.some.injEq, Entry.set.injEq] at heq
        exact absurd (Direction.wokenBy_iff.mpr (heq.2 ▸ hmeets)) hwoken
  · exact Or.inr (Or.inl (hcalled hslot))

/-- The driver takes a node out of the list. -/
theorem Served.remove {k : ℕ} {waker : Waker} (h : Served interest m)
    (hnode : m.node k = .linked waker) (rest : List ℕ) :
    Served interest { m with list := rest, node := Function.update m.node k .removed
                             wakers := m.wakers ++ [waker] } := by
  have hcalled {mask : Ready} {g : Stored} (hg : Called m mask g) :
      Called { m with list := rest, node := Function.update m.node k .removed
                      wakers := m.wakers ++ [waker] } mask g :=
    hg.imp_right fun hg ↦ ⟨List.mem_append_left _ hg.1, hg.2⟩
  obtain ⟨hwaker, hsince⟩ := h.linked k waker hnode
  have hreg := h.registered k (by simp [hnode])
  refine ⟨h.returned_le_listDone, h.returned_le_slotsDone, h.listDone_le, h.slotsDone_le,
    fun k' hk' ↦ ?_, fun k' waker' hk' ↦ ?_, fun k' hk' ↦ ?_, fun d g hg hpending ↦ ?_⟩
  · by_cases hkk : k' = k
    · subst hkk
      exact hreg.of_le rfl (Nat.le_refl _)
    · exact (h.registered k' (by simpa [hkk] using hk')).of_le rfl (Nat.le_refl _)
  · by_cases hkk : k' = k
    · simp [hkk] at hk'
    · exact h.linked k' waker' (by simpa [hkk] using hk')
  · by_cases hkk : k' = k
    · subst hkk
      -- its waker goes into the array, to be woken before `wake` returns
      exact Or.inr ⟨by simp [hwaker], fun i hi hrecheck ↦
        Nat.le_trans h.returned_le_listDone (hsince i hi hrecheck)⟩
    · exact hcalled (h.removed k' (by simpa [hkk] using hk'))
  · obtain ⟨hg, hslot⟩ := h.caller d g hg hpending
    exact ⟨hg.of_le rfl (Nat.le_refl _), hslot.imp id hcalled⟩

/-- `wake` is through the list: there is no node left. -/
theorem Served.scanEnd {event : ℕ} {ready : Ready} (h : Served interest m) (hlinked : Linked m)
    (hat : DriverAt m (.scan event ready)) (hlist : m.list = []) :
    Served interest { m with lock := none, listDone := event + 1 } := by
  obtain ⟨hlt, hslots, -⟩ := hat
  -- a linked node would be in the list
  have hnone (k : ℕ) (waker : Waker) : m.node k ≠ .linked waker := fun hk ↦ by
    have hmem := (hlinked.mem_iff k).mpr ⟨waker, hk⟩
    simp [hlist] at hmem
  have hreturned := h.returned_le_slotsDone
  exact ⟨hslots ▸ hreturned, hreturned, hlt, h.slotsDone_le,
    fun k hk ↦ (h.registered k hk).of_le rfl (Nat.le_refl _),
    fun k waker hk ↦ absurd hk (hnone k waker), h.removed, fun d g hg hpending ↦
      (h.caller d g hg hpending).imp_left fun hg ↦ hg.of_le rfl (Nat.le_refl _)⟩

/-- `wake` returns: the array is empty, so who was to be woken has been. -/
theorem Served.wakeReturn {event : ℕ} (h : Served interest m) (hat : DriverAt m (.finish event))
    (hwakers : m.wakers = []) : Served interest { m with returned := event + 1 } := by
  obtain ⟨hlist, hslots, -⟩ := hat
  have hcalled {mask : Ready} {g : Stored} (hg : Called m mask g) :
      g.waker ∈ m.woken.drop g.wakes := hg.resolve_right fun hg ↦ by simp [hwakers] at hg
  exact ⟨Nat.le_of_eq hlist.symm, Nat.le_of_eq hslots.symm, h.listDone_le, h.slotsDone_le,
    fun k hk ↦ (h.registered k hk).of_le rfl (Nat.le_refl _), h.linked,
    fun k hk ↦ Or.inl (hcalled (h.removed k hk)), fun d g hg hpending ↦
      (h.caller d g hg hpending).imp (fun hg ↦ hg.of_le rfl (Nat.le_refl _))
        fun hslot ↦ hslot.imp id fun hg ↦ Or.inl (hcalled hg)⟩

/-- Future `k` stores a waker in its node, new or not. -/
theorem Served.store {k recheck : ℕ} {waker : Waker} (h : Served interest m) (list : List ℕ)
    (hrecheck : recheck ≤ m.log.length)
    (hanswered : Answered m.log (.fromInterest (interest k)) recheck)
    (hsince : Since m.log (.fromInterest (interest k)) ⟨waker, m.woken.length, recheck⟩
      m.listDone) :
    Served interest { m with list, node := Function.update m.node k (.linked waker)
                             stored := Function.update m.stored k
                               ⟨waker, m.woken.length, recheck⟩ } := by
  refine ⟨h.returned_le_listDone, h.returned_le_slotsDone, h.listDone_le, h.slotsDone_le,
    fun k' hk' ↦ ?_, fun k' waker' hk' ↦ ?_, fun k' hk' ↦ ?_, fun d g hg hpending ↦
      (h.caller d g hg hpending).imp_left fun hg ↦ hg.of_le rfl (Nat.le_refl _)⟩
  · by_cases hkk : k' = k
    · subst hkk
      simp only [Function.update_self]
      exact ⟨Nat.le_refl _, hrecheck, hanswered⟩
    · simp only [Function.update_of_ne hkk]
      exact (h.registered k' (by simpa [hkk] using hk')).of_le rfl (Nat.le_refl _)
  · by_cases hkk : k' = k
    · subst hkk
      simp only [Function.update_self, Node.linked.injEq] at hk'
      simpa [hk'] using hsince
    · simpa [hkk] using h.linked k' waker' (by simpa [hkk] using hk')
  · by_cases hkk : k' = k
    · simp [hkk] at hk'
    · simpa [hkk, Called] using h.removed k' (by simpa [hkk] using hk')

/-- A thread stores its waker in the slot of its direction. -/
theorem Served.storeSlot {k : ℕ} {d : Direction} {waker : Waker} (h : Served interest m) :
    Served interest { m with slot := Function.update m.slot d (some waker)
                             caller := Function.update m.caller d
                               (some ⟨k, ⟨waker, m.woken.length, 0⟩, false⟩) } := by
  refine ⟨h.returned_le_listDone, h.returned_le_slotsDone, h.listDone_le, h.slotsDone_le,
    fun k hk ↦ (h.registered k hk).of_le rfl (Nat.le_refl _), h.linked, h.removed,
    fun d' g hg hpending ↦ ?_⟩
  by_cases hd : d' = d
  · subst hd
    simp only [Function.update_self, Option.some.injEq] at hg
    simp [← hg] at hpending
  · simp only [Function.update_of_ne hd] at hg ⊢
    exact (h.caller d' g hg hpending).imp_left fun hg ↦ hg.of_le rfl (Nat.le_refl _)

/-- The re-check of a thread finds nothing. -/
theorem Served.recheckPending {k n : ℕ} {d : Direction} {waker : Waker} (h : Served interest m)
    (hword : m.word.Holds m.log) (hempty : (d.mask &&& m.word.readiness).isEmpty = true)
    (hslot : m.slot d = some waker) (hcaller : m.caller d = some ⟨k, ⟨waker, n, 0⟩, false⟩)
    (hn : n ≤ m.woken.length) :
    Served interest { m with caller := Function.update m.caller d ((m.caller d).map fun c ↦
      { c with stored := { c.stored with recheck := m.log.length }, pending := true }) } := by
  refine ⟨h.returned_le_listDone, h.returned_le_slotsDone, h.listDone_le, h.slotsDone_le,
    fun k hk ↦ (h.registered k hk).of_le rfl (Nat.le_refl _), h.linked, h.removed,
    fun d' g hg hpending ↦ ?_⟩
  by_cases hd : d' = d
  · subst hd
    simp only [Function.update_self, hcaller, Option.map_some, Option.some.injEq] at hg
    subst hg
    have hanswered : Answered m.log d'.mask m.log.length := by
      refine answered_of_holds hword fun b hmask hb ↦ ?_
      exact Ready.isEmpty_iff.mp hempty b (Ready.mem_and.mpr ⟨hmask, hb⟩)
    refine ⟨⟨hn, Nat.le_refl _, hanswered⟩, Or.inl ⟨hslot, fun i hi hrecheck ↦ ?_⟩⟩
    exact absurd hi.isEvent.lt (Nat.not_lt.mpr hrecheck)
  · simp only [Function.update_of_ne hd] at hg
    exact (h.caller d' g hg hpending).imp_left fun hg ↦ hg.of_le rfl (Nat.le_refl _)

/-- A step that touches neither the log nor the wakers and their places, apart from nodes that
become new again. -/
theorem Served.frame (h : Served interest m) (hlog : m'.log = m.log) (hwoken : m'.woken = m.woken)
    (hwakers : m'.wakers = m.wakers) (hnode : ∀ k, m'.node k = m.node k ∨ m'.node k = .new)
    (hslot : m'.slot = m.slot) (hstored : m'.stored = m.stored) (hcaller : m'.caller = m.caller)
    (hdone : m'.slotsDone = m.slotsDone ∧ m'.listDone = m.listDone ∧ m'.returned = m.returned) :
    Served interest m' := by
  obtain ⟨hslots, hlist, hreturned⟩ := hdone
  have hregistered {mask : Ready} {g : Stored} (hg : Registered m mask g) : Registered m' mask g :=
    hg.of_le hlog (Nat.le_of_eq (by rw [hwoken]))
  have hcalled {mask : Ready} {g : Stored} (hg : Called m mask g) : Called m' mask g := by
    rwa [Called, hwoken, hwakers, hlog, hreturned]
  refine ⟨?_, ?_, ?_, ?_, fun k hk ↦ ?_, fun k waker hk ↦ ?_, fun k hk ↦ ?_,
    fun d g hg hpending ↦ ?_⟩
  · rw [hreturned, hlist]
    exact h.returned_le_listDone
  · rw [hreturned, hslots]
    exact h.returned_le_slotsDone
  · rw [hlist, hlog]
    exact h.listDone_le
  · rw [hslots, hlog]
    exact h.slotsDone_le
  · rw [hstored]
    exact hregistered (h.registered k ((hnode k).resolve_right hk ▸ hk))
  · rw [hstored, hlog, hlist]
    exact h.linked k waker ((hnode k).resolve_right (by simp [hk]) ▸ hk)
  · rw [hstored]
    exact hcalled (h.removed k ((hnode k).resolve_right (by simp [hk]) ▸ hk))
  · rw [hslot, hlog, hslots]
    exact (h.caller d g (hcaller ▸ hg) hpending).imp hregistered fun hs ↦ hs.imp id hcalled

theorem Served.move (h : Served interest m) (hcoherent : Coherent m) (hlinked : Linked m)
    (hat : At interest i m p) (hmove : Move interest m i p a m' p') : Served interest m' := by
  cases hmove with
  | set | clear => exact h.append _ _
  | takeSlots => exact h.takeSlots (hat.driver rfl)
  | scanEnd hlist => exact h.scanEnd hlinked (hat.driver rfl) hlist
  | scanRemove _ _ hnode => exact h.remove hnode _
  | drainWake hwakers | finishWake hwakers => exact h.wakeOne hwakers
  | wakeReturn hwakers => exact h.wakeReturn (hat.driver rfl) hwakers
  | @register k n waker =>
    obtain ⟨hn, hlist, hanswered⟩ := hat.register k waker n rfl rfl
    exact h.store _ hn hanswered fun i _ hrecheck ↦ Nat.le_trans hlist hrecheck
  | @inspectLinked k _ waker hnode =>
    have hreg := h.registered k (by simp [hnode])
    exact h.store _ hreg.recheck hreg.answered (h.linked k _ hnode).2
  | store => exact h.storeSlot
  | @recheckPending k d _ hempty =>
    obtain ⟨waker, n, hslot, hcaller, hn⟩ := hat.recheck k d rfl rfl
    exact h.recheckPending hcoherent.word hempty hslot hcaller hn
  | wakeLock =>
    obtain ⟨hwakers, -⟩ := hat.driver rfl
    exact h.frame rfl rfl hwakers.symm (fun _ ↦ Or.inl rfl) rfl rfl rfl ⟨rfl, rfl, rfl⟩
  | @inspectRemoved k =>
    refine h.frame rfl rfl rfl (fun k' ↦ ?_) rfl rfl rfl ⟨rfl, rfl, rfl⟩
    by_cases hk : k' = k
    · simp [hk]
    · simp [hk]
  | _ => exact h.frame rfl rfl rfl (fun _ ↦ Or.inl rfl) rfl rfl rfl ⟨rfl, rfl, rfl⟩

/-- A step of the driver. -/
theorem DriverAt.move (h : Served interest m) (hat : DriverAt m p)
    (hmove : Move interest m .driver p a m' p') : DriverAt m' p' := by
  cases hmove with
  | set =>
    obtain ⟨hwakers, hevents⟩ := hat
    refine ⟨hwakers, ⟨_, List.getElem?_concat_length⟩, h.slotsDone_le, fun i hi ↦ ?_⟩
    exact (isEvent_of_append hi).imp (hevents i) And.left
  | takeSlots =>
    obtain ⟨-, ⟨turn, hevent⟩, hslots, hevents⟩ := hat
    refine ⟨(List.getElem?_eq_some_iff.mp hevent).1, rfl, fun i hi ↦ ?_⟩
    have := hevents i hi
    change i < _ + 1
    omega
  | wakeLock =>
    obtain ⟨-, hrest⟩ := hat
    exact ⟨rfl, hrest⟩
  | scanEnd =>
    obtain ⟨-, hslots, hevents⟩ := hat
    exact ⟨rfl, hslots, hevents⟩
  | wakeReturn hwakers =>
    obtain ⟨-, -, hevents⟩ := hat
    exact ⟨hwakers, hevents⟩
  | _ => exact hat

theorem isEvent_of_append_clear {i : ℕ} {removed : Ready}
    (h : IsEvent (log ++ [.clear removed]) i) : IsEvent log i :=
  (isEvent_of_append h).resolve_right fun h ↦ by simp [Entry.turn?] at h

theorem DriverAt.clear (hat : DriverAt m p) (word : Word) (removed : Ready) :
    DriverAt { m with word, log := m.log ++ [.clear removed] } p := by
  have hlen : m.log.length ≤ (m.log ++ [Entry.clear removed]).length := by simp
  cases p with
  | idle | setLoad | setExchange =>
    exact ⟨hat.1, fun i hi ↦ hat.2 i (isEvent_of_append_clear hi)⟩
  | wakeLock | takeSlots =>
    obtain ⟨hwakers, ⟨turn, hevent⟩, hslots, hevents⟩ := hat
    exact ⟨hwakers, ⟨turn, by
      rw [List.getElem?_append_left (List.getElem?_eq_some_iff.mp hevent).1]
      exact hevent⟩, hslots, fun i hi ↦ hevents i (isEvent_of_append_clear hi)⟩
  | scan | drain =>
    obtain ⟨hlt, hslots, hevents⟩ := hat
    exact ⟨Nat.lt_of_lt_of_le hlt hlen, hslots, fun i hi ↦ hevents i (isEvent_of_append_clear hi)⟩
  | finish =>
    obtain ⟨hlist, hslots, hevents⟩ := hat
    exact ⟨hlist, hslots, fun i hi ↦ hevents i (isEvent_of_append_clear hi)⟩
  | _ => trivial

theorem DriverAt.other (hat : DriverAt m q) (hi : i ≠ .driver)
    (hmove : Move interest m i p a m' p') : DriverAt m' q := by
  cases hmove with
  | clear => exact hat.clear _ _
  | _ => first | exact absurd rfl hi | exact hat

theorem At.move (h : Served interest m) (hcoherent : Coherent m) (hat : At interest i m p)
    (hmove : Move interest m i p a m' p') : At interest i m' p' := by
  refine ⟨?_, ?_, ?_⟩
  · rintro rfl
    exact (hat.driver rfl).move h hmove
  · rintro k waker n rfl rfl
    cases hmove with
    | recheck _ hempty =>
      refine ⟨Nat.le_refl _, h.listDone_le, answered_of_holds hcoherent.word fun b hmask hb ↦ ?_⟩
      exact Ready.isEmpty_iff.mp hempty b (Ready.mem_and.mpr ⟨hb, hmask⟩)
  · rintro k d rfl rfl
    cases hmove with
    | @store _ _ waker => exact ⟨waker, _, by simp, by simp, Nat.le_refl _⟩

/-- Whoever is between a re-check and what depends on it holds the lock. -/
theorem At.other (hi : Sound i m p) (hj : Sound j m q) (hji : j ≠ i) (hat : At interest j m q)
    (hmove : Move interest m i p a m' p') : At interest j m' q := by
  have hlock (hq : q.locks) : ¬p.locks := fun hp ↦
    hji (Option.some.inj ((hj.locks hq).symm.trans (hi.locks hp)))
  refine ⟨?_, ?_, ?_⟩
  · rintro rfl
    exact (hat.driver rfl).other hji.symm hmove
  · rintro k waker n rfl rfl
    obtain ⟨hn, hlist, hanswered⟩ := hat.register k waker n rfl rfl
    have hp := hlock trivial
    cases hmove with
    | set | clear => exact ⟨Nat.le_trans hn (by simp), hlist, hanswered.append hn⟩
    | scanEnd => exact absurd trivial hp
    | _ => exact ⟨hn, hlist, hanswered⟩
  · rintro k d rfl rfl
    obtain ⟨waker, n, hslot, hcaller, hn⟩ := hat.recheck k d rfl rfl
    have hp := hlock trivial
    cases hmove with
    | takeSlots | store | recheckPending => exact absurd trivial hp
    | drainWake | finishWake =>
      exact ⟨waker, n, hslot, hcaller, Nat.le_trans hn (by simp [Shared.wakeOne])⟩
    | _ => exact ⟨waker, n, hslot, hcaller, hn⟩

theorem served_new {word : Word} {slot : Direction → Option Waker} {turn : ℕ} :
    System.Holds (Served interest) (At interest) (State.new word slot turn) := by
  refine ⟨⟨Nat.le_refl _, Nat.le_refl _, Nat.le_refl _, Nat.le_refl _, ?_, ?_, ?_, ?_⟩, fun i ↦ ?_⟩
  · simp [State.new]
  · simp [State.new]
  · simp [State.new]
  · simp [State.new]
  · cases i with
    | driver =>
      exact ⟨fun _ ↦ ⟨rfl, fun i hi ↦ absurd hi.lt (by simp [State.new])⟩, by simp, by simp⟩
    | future k => exact ⟨by simp, by simp [State.new], by simp⟩
    | thread k => exact ⟨by simp, by simp, by simp [State.new]⟩

theorem served_of_reachableUnder {G : State → Agent × Label → Prop} {c : State}
    (h : (machine interest).ReachableUnder G c) :
    System.Holds (Served interest) (At interest) c := by
  refine System.holds_of_reachableUnder h ?_ ?_ ?_
  · rintro _ ⟨word, slot, turn, -, rfl⟩
    exact served_new
  · intro c i a m p hreach hc _ hstep
    have hmove := move_of_step hstep
    have hcoherent := (coherent_of_reachableUnder hreach).1
    exact ⟨hc.1.move hcoherent (sound_of_reachableUnder hreach).1 (hc.2 i) hmove,
      (hc.2 i).move hc.1 hcoherent hmove⟩
  · intro c i a m p hreach hc _ hstep j hj
    have hsound := (sound_of_reachableUnder hreach).2
    exact (hc.2 j).other (hsound i) (hsound j) hj (move_of_step hstep)

end ArcDischarge.Io
