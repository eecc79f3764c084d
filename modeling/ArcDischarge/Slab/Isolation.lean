import ArcDischarge.Slab.Locks
import ArcDischarge.Slab.Provenance

/-!
# What one registration leaves to the next

A slot is used again with the `ScheduledIo` that the last registration has left there. `Clear`
resets its word, except for the generation, and nothing else: a waker in a direction slot, or a node
of a future that was leaked while it waited, stays for the next registration, whose events wake it.
(The drop of such a future would abort the process.) The call of `clear_wakers` that would see to
the slots is commented out.

So the registrations are isolated from each other in exactly the runs in which the waiters are empty
whenever a slot is cleared.
-/

namespace ArcDischarge.Slab

open Io (Interest Ready Word Waker)

/-- A default `ScheduledIo`, but for the generation. -/
structure IsDefault (e : Io.Shared) : Prop where
  word : ∀ i, i < 24 ∨ 31 ≤ i → e.word.getLsbD i = false
  slot : ∀ d, e.slot d = none
  list : e.list = []
  lock : e.lock = none

/-- An event of the last registration of slot `j` had the flag. -/
def Delivered (m : Shared) (j b : ℕ) : Prop := ∃ ready ∈ m.delivered j, b ∈ ready

structure Isolated (m : Shared) : Prop where
  /-- The events of a registration have woken only wakers that were stored through it. -/
  wakes : ∀ j, ∀ waker ∈ (m.entry j).woken, waker ∈ m.stored j
  /-- The readiness that is handed out through a registration is that of its own events. -/
  observes : ∀ j, ∀ captured ∈ (m.entry j).held, ∀ b ∈ captured.event.ready, Delivered m j b
  /-- A slot that may be used again is as good as new. -/
  cleared : ∀ j, m.phase j = .free → IsDefault (m.entry j)

/-- The slot that the step calls `Clear::clear` for: in the drop of a registration, or when the
driver gives back its reference to a slot that was cleared meanwhile. -/
def clearing (c : State) : Agent × Label → Option ℕ
  | (.source k, .drop key) =>
    if c.pc (.source k) = .idle ∧ key ∈ c.shared.registrations ∧
        c.shared.borrows key.index = [] ∧ c.shared.driverAt ≠ some key.index then some key.index
    else none
  | (.io .driver, .io .step) =>
    match c.pc (.io .driver) with
    | .call key (.finish _) =>
      if (c.shared.entry key.index).wakers = [] ∧ c.shared.phase key.index = .marked then
        some key.index
      else none
    | _ => none
  | _ => none

/-- A slot is cleared only when nobody's waker is there. -/
def ClearsIdle (c : State) (a : Agent × Label) : Prop :=
  ∀ j, clearing c a = some j →
    (∀ d, (c.shared.entry j).slot d = none) ∧ (c.shared.entry j).list = []

variable {interest : ℕ → Interest} {m m' : Shared} {p p' q : Pc} {a : Label} {i i' : Agent}

/-! ## The contents of the slots -/

def Drawn (m : Shared) (j : ℕ) : Prop :=
  DrawnFrom (Delivered m j) (· ∈ m.stored j) (m.entry j)

/-- The contents of every slot come from its registration, and a free slot is as good as new. -/
structure Kept (m : Shared) : Prop where
  drawn : ∀ j, Drawn m j
  free : ∀ j, m.phase j = .free → IsDefault (m.entry j)

/-- The flags that an agent has with it come from its registration, too. -/
def Carries (m : Shared) : Pc → Prop
  | .call key r => ∀ b ∈ flags r, Delivered m key.index b
  | _ => True

theorem readiness_cleared {w word : Word} (h : w.cleared = some word) :
    (∀ b, b ∉ word.readiness) ∧ ∀ i, i < 24 ∨ 31 ≤ i → word.getLsbD i = false := by
  constructor
  · intro b
    rw [(Word.holds_nil (.inr ⟨w, h⟩)).readiness]
    exact Ready.not_mem_EMPTY.mp
  · intro i hi
    rw [Io.spans_GENERATION.getLsbD_pack (by omega) h, if_neg (by omega)]
    simp

theorem DrawnFrom.clear {D : ℕ → Prop} {S : Waker → Prop} {e : Io.Shared} {word : Word}
    (h : DrawnFrom D S e) (hword : e.word.cleared = some word) :
    DrawnFrom D S { e with word } := by
  obtain ⟨hready, hbits⟩ := readiness_cleared hword
  exact ⟨fun i hi ↦ hbits i (.inr hi), fun b hb ↦ absurd hb (hready b), h.held, h.slot, h.list,
    h.wakers, h.woken⟩

/-- Nothing is left in a default `ScheduledIo`. -/
theorem IsDefault.drawnFrom {D : ℕ → Prop} {S : Waker → Prop} {e : Io.Shared} (h : IsDefault e) :
    DrawnFrom D S (fresh e) := by
  refine ⟨fun i hi ↦ h.word i (.inr hi), fun b hb ↦ ?_, by simp [fresh], fun d waker hslot ↦ ?_,
    fun k hk ↦ ?_, by simp [fresh], by simp [fresh]⟩
  · change b ∈ e.word.readiness at hb
    rw [← Io.fromUsize_eq_readiness, Ready.mem_fromUsize] at hb
    rw [h.word b (.inl (by omega))] at hb
    cases hb.2
  · change e.slot d = some waker at hslot
    rw [h.slot d] at hslot
    cases hslot
  · change k ∈ e.list at hk
    rw [h.list] at hk
    cases hk

theorem drawn_of_eq {j : ℕ} {e : Io.Shared} {delivered : List Ready} {stored : List Waker}
    (h : DrawnFrom (fun b ↦ ∃ ready ∈ delivered, b ∈ ready) (· ∈ stored) e)
    (hentry : m.entry j = e) (hdelivered : m.delivered j = delivered)
    (hstored : m.stored j = stored) : Drawn m j := by
  subst hentry hdelivered hstored
  exact h

theorem Drawn.setEntry (h : ∀ j, Drawn m j) {b : Io.Agent} {j : ℕ} {r r' : Io.Pc} {l : Io.Label}
    {e : Io.Shared} (hflags : ∀ b ∈ flags r, Delivered m j b)
    (hmove : Io.Move interest (m.entry j) b r l e r') : ∀ j', Drawn (m.setEntry b j r e) j' := by
  intro j'
  by_cases hj : j' = j
  · subst hj
    have hgrow : DrawnFrom (Delivered m j')
        (· ∈ m.stored j' ++ (storing (m.entry j') b r).toList) (m.entry j') :=
      (h j').mono (fun _ hb ↦ hb) fun w hw ↦ List.mem_append_left _ hw
    have hdrawn := hgrow.move hflags
      (fun w hw ↦ List.mem_append_right _ (Option.mem_toList.mpr hw)) hmove
    exact drawn_of_eq hdrawn (Function.update_self ..) rfl (Function.update_self ..)
  · exact drawn_of_eq (h j') (Function.update_of_ne hj ..) rfl (Function.update_of_ne hj ..)

theorem Drawn.create (h : ∀ j, Drawn m j) {k j : ℕ} (hj : IsDefault (m.entry j)) :
    ∀ j', Drawn (m.create k j) j' := by
  intro j'
  by_cases hne : j' = j
  · subst hne
    exact drawn_of_eq hj.drawnFrom (Function.update_self ..) (Function.update_self ..)
      (Function.update_self ..)
  · exact drawn_of_eq (h j') (Function.update_of_ne hne ..) (Function.update_of_ne hne ..)
      (Function.update_of_ne hne ..)

theorem Drawn.deliver (h : ∀ j, Drawn m j) {j : ℕ} {ready : Ready} :
    ∀ j', Drawn (m.deliver j ready) j' := by
  intro j'
  by_cases hne : j' = j
  · subst hne
    have hgrow : DrawnFrom (fun b ↦ ∃ r ∈ m.delivered j' ++ [ready], b ∈ r) (· ∈ m.stored j')
        (m.entry j') := by
      refine (h j').mono (fun b hb ↦ ?_) fun w hw ↦ hw
      obtain ⟨r, hr, hmem⟩ := hb
      exact ⟨r, List.mem_append_left _ hr, hmem⟩
    have hticked : DrawnFrom (fun b ↦ ∃ r ∈ m.delivered j' ++ [ready], b ∈ r) (· ∈ m.stored j')
        { m.entry j' with tick := m.tick, turn := m.turn } :=
      ⟨hgrow.high, hgrow.word, hgrow.held, hgrow.slot, hgrow.list, hgrow.wakers, hgrow.woken⟩
    exact drawn_of_eq hticked (Function.update_self ..) (Function.update_self ..) rfl
  · exact drawn_of_eq (h j') (Function.update_of_ne hne ..) (Function.update_of_ne hne ..) rfl

/-- `Clear` takes the readiness and adds nothing. -/
theorem Drawn.clear (h : ∀ j, Drawn m j) {j : ℕ} {word : Word}
    (hword : (m.entry j).word.cleared = some word)
    (hentry : m'.entry = Function.update m.entry j { m.entry j with word })
    (hdelivered : m'.delivered = m.delivered) (hstored : m'.stored = m.stored) :
    ∀ j', Drawn m' j' := by
  intro j'
  by_cases hne : j' = j
  · subst hne
    exact drawn_of_eq (DrawnFrom.clear (h j') hword) (by rw [hentry, Function.update_self])
      (congrFun hdelivered _) (congrFun hstored _)
  · exact drawn_of_eq (h j') (by rw [hentry, Function.update_of_ne hne])
      (congrFun hdelivered _) (congrFun hstored _)

/-- A slot with a call on it is not free. -/
theorem phase_ne_free (h : Sound m) {b : Io.Agent} {key : Key} {r r' : Io.Pc} {l : Io.Label}
    {e : Io.Shared} (hok : Ok m (.io b) (.call key r))
    (hmove : Io.Move interest (m.entry key.index) b r l e r') : m.phase key.index ≠ .free := by
  have hregistered (hkey : key ∈ m.registrations) : m.phase key.index ≠ .free := by
    rw [(h.occupied key hkey).1]
    simp
  cases b with
  | driver => exact h.driver _ hok.1
  | thread k => exact hregistered hok.1
  | future k =>
    rcases hok with rfl | hok
    · cases hmove with
      | drop hp | abort hp => simp at hp
    · exact hregistered hok.1

/-- What happens in one slot leaves the other free slots as good as new. -/
theorem Kept.free_update (h : Kept m) {j j' : ℕ} {e : Io.Shared} (hne : j' ≠ j)
    (hfree : m.phase j' = .free) : IsDefault (Function.update m.entry j e j') := by
  rw [Function.update_of_ne hne]
  exact h.free j' hfree

theorem Kept.setEntry (h : Kept m) {b : Io.Agent} {j : ℕ} {r r' : Io.Pc} {l : Io.Label}
    {e : Io.Shared} (hflags : ∀ b ∈ flags r, Delivered m j b)
    (hmove : Io.Move interest (m.entry j) b r l e r') (hj : m.phase j ≠ .free) :
    Kept (m.setEntry b j r e) := by
  refine ⟨Drawn.setEntry h.drawn hflags hmove, fun j' hj' ↦ ?_⟩
  have hne : j' ≠ j := by
    rintro rfl
    exact hj hj'
  exact h.free_update hne hj'

/-- The phase of a slot changes, and it is not free afterwards. -/
theorem free_of_update {j j' : ℕ} {phase : Phase} (hphase : phase ≠ .free)
    (h : Function.update m.phase j phase j' = .free) : j' ≠ j ∧ m.phase j' = .free := by
  by_cases hne : j' = j
  · rw [hne, Function.update_self] at h
    exact absurd h hphase
  · rw [Function.update_of_ne hne] at h
    exact ⟨hne, h⟩

/-- A slot is cleared whose waiters are empty. -/
theorem Kept.clear (h : Kept m) {j : ℕ} {word : Word}
    (hword : (m.entry j).word.cleared = some word) (hslot : ∀ d, (m.entry j).slot d = none)
    (hlist : (m.entry j).list = []) (hlock : (m.entry j).lock = none)
    (hentry : m'.entry = Function.update m.entry j { m.entry j with word })
    (hphase : m'.phase = Function.update m.phase j .free)
    (hdelivered : m'.delivered = m.delivered) (hstored : m'.stored = m.stored) : Kept m' := by
  refine ⟨Drawn.clear h.drawn hword hentry hdelivered hstored, fun j' hj' ↦ ?_⟩
  rw [hentry]
  by_cases hne : j' = j
  · rw [hne, Function.update_self]
    exact ⟨(readiness_cleared hword).2, hslot, hlist, hlock⟩
  · rw [hphase, Function.update_of_ne hne] at hj'
    exact h.free_update hne hj'

theorem Kept.move {c : State} (hc : (machine interest).Reachable c) (h : Kept c.shared)
    (hcarries : Carries c.shared (c.pc i)) (hidle : ClearsIdle c (i, a))
    (hmove : Move interest c.shared i (c.pc i) a m' p') : Kept m' := by
  have hholds := holds_of_reachable hc
  have hok := hholds.2 i
  generalize hp : c.pc i = p at hmove hcarries hok
  cases hmove with
  | @create k j hfree =>
    refine ⟨Drawn.create h.drawn (h.free j hfree), fun j' hj' ↦ ?_⟩
    obtain ⟨hne, hj'⟩ := free_of_update (by simp) hj'
    exact h.free_update hne hj'
  | dropMarks =>
    exact ⟨h.drawn, fun j' hj' ↦ h.free j' (free_of_update (by simp) hj').2⟩
  | @dropClears k key word hkey hborrows hat hword =>
    have hclearing : clearing c (.source k, .drop key) = some key.index := by
      simp [clearing, hp, hkey, hborrows, hat]
    obtain ⟨hslot, hlist⟩ := hidle _ hclearing
    have hlock := lock_eq_none hc hborrows fun hlocks ↦
      hat (driverAt_of_locks (hholds.2 (.io .driver)) hlocks)
    exact h.clear hword hslot hlist hlock rfl rfl rfl rfl
  | @event key ev hget =>
    refine ⟨Drawn.deliver h.drawn, fun j' hj' ↦ ?_⟩
    have hne : j' ≠ key.index := by
      rintro rfl
      cases hget.1.symm.trans hj'
    exact h.free_update hne hj'
  | @driver key r r' e hio =>
    exact h.setEntry hcarries hio (phase_ne_free hholds.1 hok hio)
  | @driverDone key r e hio =>
    have hset := h.setEntry hcarries hio (phase_ne_free hholds.1 hok hio)
    exact ⟨hset.drawn, hset.free⟩
  | @driverClears key r e word hio hphase hword =>
    have hset := h.setEntry hcarries hio (phase_ne_free hholds.1 hok hio)
    have hentry : (c.shared.setEntry .driver key.index r e).entry key.index = e :=
      Function.update_self ..
    -- the last step of `wake` leaves the waiters as they are
    cases hio with
    | @wakeReturn event hwakers =>
      have hclearing : clearing c (.io .driver, .io .step) = some key.index := by
        simp [clearing, hp, hwakers, hphase]
      obtain ⟨hslot, hlist⟩ := hidle _ hclearing
      have hborrows : c.shared.borrows key.index = [] := by
        by_contra hne
        obtain ⟨key', hkey', hindex⟩ := hholds.1.borrowed _ hne
        exact hholds.1.index_ne hkey' (by simp [hphase]) hindex
      have hlock := lock_eq_none hc hborrows (by simp [hp, Pc.Locks, Io.Pc.locks])
      rw [← hentry] at hword
      refine hset.clear hword ?_ ?_ ?_ ?_ rfl rfl rfl
      · rw [hentry]
        exact hslot
      · rw [hentry]
        exact hlist
      · rw [hentry]
        exact hlock
      · rw [hentry]
        exact (Function.update_idem ..).symm
  | call hkey hget hio =>
    have hset := h.setEntry (b := .thread _) (by simp [flags]) hio (by simp [hget.1])
    exact ⟨hset.drawn, hset.free⟩
  | thread hio => exact h.setEntry hcarries hio (phase_ne_free hholds.1 hok hio)
  | threadDone hio =>
    have hset := h.setEntry hcarries hio (phase_ne_free hholds.1 hok hio)
    exact ⟨hset.drawn, hset.free⟩
  | future hio => exact h.setEntry hcarries hio (phase_ne_free hholds.1 hok hio)
  | futureDrop hio =>
    have hset := h.setEntry hcarries hio (phase_ne_free hholds.1 hok hio)
    exact ⟨hset.drawn, hset.free⟩
  | _ => exact ⟨h.drawn, h.free⟩

theorem Carries.move (h : Kept m) (hcarries : Carries m p)
    (hmove : Move interest m i p a m' p') : Carries m' p' := by
  cases hmove with
  | event =>
    intro b hb
    refine ⟨_, ?_, hb⟩
    change _ ∈ Function.update m.delivered _ _ _
    rw [Function.update_self]
    exact List.mem_append_right _ List.mem_cons_self
  | driver hio =>
    refine (h.drawn _).flags_move hcarries (.inl ?_) hio
    rintro rfl
    cases hio
  | thread hio => exact (h.drawn _).flags_move hcarries (.inr (by simp)) hio
  | future hio | futureDrop hio => exact (h.drawn _).flags_move hcarries (.inr (by simp)) hio
  | call _ _ hio => exact (h.drawn _).flags_move (by simp [flags]) (.inr (by simp)) hio
  | readiness => simp [Carries, flags]
  | _ => trivial

theorem Delivered.deliver {j j' b : ℕ} {ready : Ready} (h : Delivered m j b) :
    Delivered (m.deliver j' ready) j b := by
  obtain ⟨r, hr, hb⟩ := h
  refine ⟨r, ?_, hb⟩
  change r ∈ Function.update m.delivered j' (m.delivered j' ++ [ready]) j
  by_cases hj : j = j'
  · rw [hj, Function.update_self]
    exact List.mem_append_left _ (hj ▸ hr)
  · rwa [Function.update_of_ne hj]

/-- Of the agents that stand at a free slot, all are futures that were dropped. -/
theorem flags_eq_empty_of_free (h : Sound m) {key : Key} {r : Io.Pc} (hok : Ok m i (.call key r))
    (hfree : m.phase key.index = .free) : flags r = .EMPTY := by
  have hregistered (hkey : key ∈ m.registrations) : False := by
    cases hfree.symm.trans (h.occupied key hkey).1
  cases i with
  | source k => exact hok.elim
  | io b =>
    cases b with
    | driver => exact absurd hfree (h.driver _ hok.1)
    | thread k => exact (hregistered hok.1).elim
    | future k =>
      rcases hok with rfl | hok
      · rfl
      · exact (hregistered hok.1).elim

theorem Carries.other (h : Sound m) (hok : Ok m i' q) (hcarries : Carries m q)
    (hmove : Move interest m i p a m' p') : Carries m' q := by
  cases q with
  | call key r =>
    cases hmove with
    | @create k j hfree =>
      intro b hb
      by_cases hindex : key.index = j
      · rw [flags_eq_empty_of_free h hok (hindex ▸ hfree)] at hb
        exact (Ready.not_mem_EMPTY.mp hb).elim
      · obtain ⟨ready, hready, hmem⟩ := hcarries b hb
        have hsame : (m.create k j).delivered key.index = m.delivered key.index :=
          Function.update_of_ne hindex ..
        exact ⟨ready, hsame ▸ hready, hmem⟩
    | event => exact fun b hb ↦ (hcarries b hb).deliver
    | _ => exact hcarries
  | _ => trivial

/-- The invariant of the runs that clear idle slots only. -/
structure Invariant (interest : ℕ → Interest) (c : State) : Prop where
  reachable : (machine interest).Reachable c
  kept : Kept c.shared
  carries : ∀ i, Carries c.shared (c.pc i)

theorem invariant_new : Invariant interest State.new where
  reachable := .init rfl
  kept := by
    have hdefault : IsDefault (Io.State.new 0#64 (fun _ ↦ none) 0).shared :=
      ⟨by simp [Io.State.new], fun _ ↦ rfl, rfl, rfl⟩
    exact ⟨fun _ ↦ hdefault.drawnFrom, fun _ _ ↦ hdefault⟩
  carries _ := trivial

theorem Invariant.step {c d : State} {a : Agent × Label} (h : Invariant interest c)
    (hidle : ClearsIdle c a) (hs : (machine interest).step c a = some d) :
    Invariant interest d := by
  obtain ⟨i, a⟩ := a
  have hreachable : (machine interest).Reachable d := .step h.reachable trivial hs
  obtain ⟨m, p, hstep, rfl⟩ := System.machine_step_eq_some.mp hs
  have hmove := move_of_step hstep
  have hholds := holds_of_reachable h.reachable
  refine ⟨hreachable, h.kept.move h.reachable (h.carries i) hidle hmove, fun j ↦ ?_⟩
  by_cases hj : j = i
  · subst hj
    simpa using (h.carries j).move h.kept hmove
  · simpa [hj] using (h.carries j).other hholds.1 (hholds.2 j) hmove

theorem Invariant.isolated {c : State} (h : Invariant interest c) : Isolated c.shared where
  wakes j waker hwaker := (h.kept.drawn j).woken waker hwaker
  observes j captured hcaptured := (h.kept.drawn j).held captured hcaptured
  cleared := h.kept.free

/-- After `Clear` a slot is free, and its waiters are those from before. -/
def Cleared (m m' : Shared) (j : ℕ) : Prop :=
  m'.phase j = .free ∧ (m'.entry j).slot = (m.entry j).slot ∧ (m'.entry j).list = (m.entry j).list

theorem exists_clear (m : Shared) (j : ℕ) : ∃ m', m.clear j = some m' ∧ Cleared m m' j := by
  obtain ⟨word, hword, -⟩ := (m.entry j).word.exists_cleared
  refine ⟨{ m with entry := Function.update m.entry j { m.entry j with word }
                   phase := Function.update m.phase j .free }, ?_, ?_⟩
  · rw [Shared.clear, hword]
    rfl
  · simp [Cleared]

theorem exists_step_of_drop {k : ℕ} {key : Key} (hkey : key ∈ m.registrations)
    (hborrows : m.borrows key.index = []) (hat : m.driverAt ≠ some key.index) :
    ∃ m', sourceStep k m .idle (.drop key) = some (m', .idle) ∧ Cleared m m' key.index := by
  obtain ⟨m', hm', hcleared⟩ :=
    exists_clear { m with registrations := m.registrations.erase key } key.index
  have hdrop : m.drop key = some m' := (if_neg hat).trans hm'
  refine ⟨m', ?_, hcleared⟩
  change (if _ then _ else _) = _
  rw [if_pos ⟨hkey, hborrows⟩, hdrop]
  rfl

theorem exists_step_of_finish (interest : ℕ → Interest) {key : Key} {event : ℕ}
    (hwakers : (m.entry key.index).wakers = []) (hphase : m.phase key.index = .marked) :
    ∃ m', driverStep interest m (.call key (.finish event)) (.io .step) = some (m', .idle) ∧
      Cleared m m' key.index := by
  obtain ⟨e, he⟩ : ∃ e, e = { m.entry key.index with returned := event + 1 } := ⟨_, rfl⟩
  obtain ⟨s, hs⟩ : ∃ s, s = m.setEntry .driver key.index (.finish event) e := ⟨_, rfl⟩
  have hio : m.onEntry interest .driver key.index (.finish event) .step = some (s, .idle) := by
    simp [Shared.onEntry, Io.step, Io.driverStep, hwakers, hs, he]
  obtain ⟨m', hm', hcleared⟩ := exists_clear { s with driverAt := none } key.index
  have hrelease : s.release key.index = some m' := by
    subst hs
    exact (if_pos hphase).trans hm'
  refine ⟨m', ?_, by simpa [Cleared, hs, Shared.setEntry, he] using hcleared⟩
  change Option.map _ _ = _
  rw [hio, Option.map_some, if_pos rfl, hrelease]
  rfl

theorem exists_step_of_clearing (interest : ℕ → Interest) {c : State} {a : Agent × Label} {j : ℕ}
    (h : clearing c a = some j) : ∃ m p,
      step interest a.1 c.shared (c.pc a.1) a.2 = some (m, p) ∧ Cleared c.shared m j := by
  unfold clearing at h
  split at h
  · split at h
    · rename_i k key hdrop
      obtain ⟨hpc, hkey, hborrows, hat⟩ := hdrop
      obtain rfl : key.index = j := Option.some.inj h
      obtain ⟨m, hstep, hcleared⟩ := exists_step_of_drop (k := k) hkey hborrows hat
      exact ⟨m, .idle, by rw [hpc]; exact hstep, hcleared⟩
    · cases h
  · split at h
    · rename_i key event hpc
      split at h
      · rename_i hfinish
        obtain rfl : key.index = j := Option.some.inj h
        obtain ⟨m, hstep, hcleared⟩ := exists_step_of_finish interest hfinish.1 hfinish.2
        exact ⟨m, .idle, by rw [hpc]; exact hstep, hcleared⟩
      · cases h
    · cases h
  · cases h

theorem clearsIdle_of_isolated {c : State} {a : Agent × Label}
    (h : ∀ d, (machine interest).step c a = some d → Isolated d.shared) : ClearsIdle c a := by
  intro j hj
  obtain ⟨m, p, hstep, hphase, hslot, hlist⟩ := exists_step_of_clearing interest hj
  have hisolated := h _ (System.machine_step_eq_some.mpr ⟨m, p, hstep, rfl⟩)
  have hdefault := hisolated.cleared j hphase
  rw [← hslot, ← hlist]
  exact ⟨hdefault.slot, hdefault.list⟩

/-- **Registrations are isolated from each other** in exactly those runs in which a slot is cleared
only when its direction slots and its list are empty. -/
theorem isolated_iff (interest : ℕ → Interest) (as : List (Agent × Label)) :
    (machine interest).Along
        (fun c a ↦ ∀ d, (machine interest).step c a = some d → Isolated d.shared) State.new as ↔
      (machine interest).Along ClearsIdle State.new as :=
  Machine.along_iff invariant_new (fun _ _ _ hc hidle hs ↦ hc.step hidle hs)
    (fun _ hc ↦ hc.isolated) (fun _ _ _ h ↦ clearsIdle_of_isolated h) as

/-- A poll through a registration of slot 0 stores waker 7, and the registration is dropped. Slot 0
is used again, and an event is delivered for its new registration. -/
def reusedSlot : List (Agent × Label) :=
  [(.source 0, .create (some 0)), (.source 0, .register true),
    (.io (.thread 0), .call ⟨0, 1⟩ (.pollReadiness .read 7))] ++
    List.replicate 5 (.io (.thread 0), .io .step) ++
    [(.source 0, .drop ⟨0, 1⟩), (.source 1, .create (some 0)), (.source 1, .register true),
      (.io .driver, .turn), (.io .driver, .event ⟨0, 2⟩ Io.readable)] ++
    List.replicate 7 (.io .driver, .io .step)

def afterReuse : State :=
  ((machine fun _ ↦ .READABLE).exec .new reusedSlot).get (by decide +kernel)

/-- The event of the second registration wakes the waker of the first. -/
theorem not_isolated_afterReuse :
    ¬∀ c : State, (machine fun _ ↦ .READABLE).Reachable c → Isolated c.shared := by
  intro h
  have hexec : (machine fun _ ↦ .READABLE).exec .new reusedSlot = some afterReuse :=
    (Option.some_get _).symm
  have hisolated := h afterReuse (.of_exec (.init rfl) hexec)
  have hwoken : 7 ∈ (afterReuse.shared.entry 0).woken := by decide +kernel
  have hstored : afterReuse.shared.stored 0 = [] := by decide +kernel
  have hmem := hisolated.wakes 0 7 hwoken
  rw [hstored] at hmem
  cases hmem

end ArcDischarge.Slab
