import ArcDischarge.Io.Served
import ArcDischarge.Slab.Slots

/-!
# The slab refines its slots

By induction over the run, the view of every slot in use is a state that a single `ScheduledIo`
reaches. The bookkeeping that this rests on: the tick is the last byte of the turn, a slot that is
free has the word that `Clear` left there, a future that has not been made has touched no slot, and
a future that outlives its registration has the key of an earlier use.
-/

namespace ArcDischarge.Io

variable {interest : ℕ → Interest} {m m' : Shared} {p p' : Pc} {a : Label} {i : Agent}

/-- Only a turn of the driver changes the tick. -/
theorem Move.clock (hmove : Move interest m i p a m' p') (hi : i = .driver → a = .step) :
    m'.tick = m.tick ∧ m'.turn = m.turn := by
  cases hmove with
  | turn | turnEvent => exact absurd (hi rfl) (by simp)
  | _ => exact ⟨rfl, rfl⟩

/-- Nobody else touches what belongs to a future whose node is new. -/
theorem Move.of_new {k : ℕ} (hmove : Move interest m i p a m' p') (hi : i ≠ .future k)
    (hnew : m.node k = .new) :
    m'.node k = .new ∧ m'.stored k = m.stored k ∧ m'.results k = m.results k := by
  refine ⟨?_, ?_⟩
  · rcases node_of_move hmove hi with hnode | ⟨-, waker, hlinked, -⟩
    · rw [hnode, hnew]
    · rw [hnew] at hlinked
      cases hlinked
  · have hk {j : ℕ} (hj : Agent.future j ≠ .future k) : k ≠ j := fun h ↦ hj (h ▸ rfl)
    cases hmove with
    | initReady | unlockPending | unlockReady | doneLoad =>
      exact ⟨rfl, Function.update_of_ne (hk hi) _ _⟩
    | register | inspectLinked => exact ⟨Function.update_of_ne (hk hi) _ _, rfl⟩
    | _ => exact ⟨rfl, rfl⟩

end ArcDischarge.Io

namespace ArcDischarge.Slab

open Io (Caller Direction Interest Word)

/-! ## Bookkeeping -/

structure Clocked (m : Shared) : Prop where
  tick : m.tick = BitVec.ofNat 8 m.turn
  turn : ∀ j, (m.entry j).turn ≤ m.turn
  word : ∀ j, m.phase j = .free → (m.entry j).word = 0#64 ∨
    ∃ w : Word, w.cleared = some (m.entry j).word

/-- The future has touched no slot. -/
def Untouched (m : Shared) (k : ℕ) : Prop :=
  ∀ j, (m.entry j).node k = .new ∧ (m.entry j).stored k = ⟨0, 0, 0⟩ ∧ (m.entry j).results k = []

def Placed (m : Shared) : Agent → Pc → Prop
  | .io .driver, .call key _ =>
    (m.entry key.index).tick = m.tick ∧ (m.entry key.index).turn = m.turn
  | .io (.future k), .idle => Untouched m k
  | .io (.future _), .call key _ | .io (.future _), .leaked key _ =>
    key.occupancy ≤ m.occupancy key.index
  | _, _ => True

variable {interest : ℕ → Interest} {c d : State} {j : ℕ} {m m' : Shared} {p p' q : Pc} {a : Label}
  {i i' : Agent}

/-- What becomes of the `ScheduledIo` in a slot, apart from its word. -/
inductive Became (interest : ℕ → Interest) (m : Shared) (i : Agent) (e e' : Io.Shared) : Prop where
  | same (h : e' = { e with word := e'.word })
  | fresh (h : e' = Slab.fresh e)
  | event (hi : i = .io .driver) (h : e' = { e with tick := m.tick, turn := m.turn })
  | io {b : Io.Agent} {r r' : Io.Pc} {l : Io.Label} {s : Io.Shared} (hi : i = .io b)
      (hl : b = .driver → l = .step) (hmove : Io.Move interest e b r l s r')
      (h : e' = { s with word := e'.word })

theorem Move.became (hmove : Move interest m i p a m' p') (j : ℕ) :
    Became interest m i (m.entry j) (m'.entry j) := by
  have hupdate {j' : ℕ} {e : Io.Shared} (he : Became interest m i (m.entry j') e) :
      Became interest m i (m.entry j) (Function.update m.entry j' e j) := by
    by_cases hj : j = j'
    · subst hj
      simpa using he
    · rw [Function.update_of_ne hj]
      exact .same rfl
  cases hmove with
  | create => exact hupdate (.fresh rfl)
  | dropClears => exact hupdate (.same rfl)
  | event => exact hupdate (.event rfl rfl)
  | driver hio | driverDone hio | driverClears hio =>
    exact hupdate (.io rfl (fun _ ↦ rfl) hio rfl)
  | call _ _ hio | thread hio | threadDone hio | future hio | futureDrop hio =>
    exact hupdate (.io rfl (by simp) hio rfl)
  | _ => exact .same rfl

theorem Became.turn_le {e e' : Io.Shared} (h : Became interest m i e e') (hle : e.turn ≤ m.turn) :
    e'.turn ≤ m.turn := by
  cases h with
  | same h | fresh h =>
    rw [h]
    exact hle
  | event _ h => rw [h]
  | io _ hl hmove h =>
    rw [h]
    exact (hmove.clock hl).2 ▸ hle

/-- Nobody but the driver changes the tick of a slot. -/
theorem Became.clock {e e' : Io.Shared} (h : Became interest m i e e') (hi : i ≠ .io .driver) :
    e'.tick = e.tick ∧ e'.turn = e.turn := by
  cases h with
  | same h | fresh h =>
    rw [h]
    exact ⟨rfl, rfl⟩
  | event hi' => exact absurd hi' hi
  | io _ hl hmove h =>
    rw [h]
    exact hmove.clock hl

theorem Untouched.move {k : ℕ} (h : Untouched m k) (hi : i ≠ .io (.future k))
    (hmove : Move interest m i p a m' p') : Untouched m' k := by
  intro j
  obtain ⟨hnode, hstored, hresults⟩ := h j
  cases hmove.became j with
  | same h | fresh h | event _ h =>
    rw [h]
    exact ⟨hnode, hstored, hresults⟩
  | @io b _ _ _ _ hb _ hio h =>
    have hne : b ≠ .future k := fun heq ↦ hi (heq ▸ hb)
    obtain ⟨hnode', hstored', hresults'⟩ := hio.of_new hne hnode
    rw [h]
    exact ⟨hnode', hstored'.trans hstored, hresults'.trans hresults⟩

/-- The word of a slot that is free is the one that was there when it became free. -/
theorem Move.word (hsound : Sound m) (hok : Ok m i p) (hmove : Move interest m i p a m' p')
    (hj : m'.phase j = .free) : m.phase j = .free ∧ (m'.entry j).word = (m.entry j).word ∨
      ∃ w : Word, w.cleared = some (m'.entry j).word := by
  -- somebody is in the slot of `key`
  have hcall {key : Key} {e : Io.Shared} (hphase : m.phase key.index ≠ .free)
      (hfree : m.phase j = .free) :
      (Function.update m.entry key.index e j).word = (m.entry j).word := by
    have hne : j ≠ key.index := fun heq ↦ hphase (heq ▸ hfree)
    rw [Function.update_of_ne hne]
  cases hmove with
  | @create k j' =>
    have hne : j ≠ j' := by
      rintro rfl
      simp [Shared.create] at hj
    simp only [Shared.create, Function.update_of_ne hne] at hj ⊢
    exact Or.inl ⟨hj, trivial⟩
  | @dropMarks k key =>
    have hne : j ≠ key.index := by
      rintro rfl
      simp at hj
    simp only [Function.update_of_ne hne] at hj
    exact Or.inl ⟨hj, rfl⟩
  | @dropClears _ key _ _ _ _ hword | @driverClears key _ _ _ _ _ hword =>
    by_cases hne : j = key.index
    · subst hne
      exact Or.inr ⟨_, by simpa [Shared.setEntry] using hword⟩
    · simp only [Function.update_of_ne hne, Shared.setEntry] at hj ⊢
      exact Or.inl ⟨hj, trivial⟩
  | @event key _ hoccupied | @call _ key _ _ _ _ hoccupied =>
    have hphase : m.phase key.index ≠ .free := by
      rw [hoccupied.1]
      simp
    exact Or.inl ⟨hj, hcall hphase hj⟩
  | driver hio | driverDone hio | thread hio | threadDone hio | future hio | futureDrop hio =>
    exact Or.inl ⟨hj, hcall (phase_ne_free hsound hok hio) hj⟩
  | _ => exact Or.inl ⟨hj, rfl⟩

theorem Clocked.move (h : Clocked m) (hsound : Sound m) (hok : Ok m i p)
    (hmove : Move interest m i p a m' p') : Clocked m' := by
  have hclock : m'.tick = BitVec.ofNat 8 m'.turn ∧ m.turn ≤ m'.turn := by
    cases hmove with
    | turn => exact ⟨by simp [h.tick, BitVec.ofNat_add], Nat.le_succ _⟩
    | _ => exact ⟨h.tick, Nat.le_refl _⟩
  refine ⟨hclock.1, fun j ↦ ?_, fun j hj ↦ ?_⟩
  · exact Nat.le_trans ((hmove.became j).turn_le (h.turn j)) hclock.2
  · rcases hmove.word hsound hok hj with ⟨hfree, hword⟩ | hcleared
    · rw [hword]
      exact h.word j hfree
    · exact Or.inr hcleared

theorem Placed.move (hsound : Sound m) (h : Placed m i p) (hmove : Move interest m i p a m' p') :
    Placed m' i p' := by
  cases hmove with
  | event => exact ⟨by simp [Shared.deliver], by simp [Shared.deliver]⟩
  | driver hio =>
    obtain ⟨htick, hturn⟩ := hio.clock fun _ ↦ rfl
    obtain ⟨htick', hturn'⟩ := h
    exact ⟨by simpa [Shared.setEntry, htick] using htick',
      by simpa [Shared.setEntry, hturn] using hturn'⟩
  | readiness hkey => exact Nat.le_of_eq (hsound.occupied _ hkey).2.symm
  | future | futureDrop | leak => exact h
  | _ => trivial

theorem Placed.other (h : Placed m i' q) (hne : i' ≠ i) (hmove : Move interest m i p a m' p') :
    Placed m' i' q := by
  cases i' with
  | source k => trivial
  | io b =>
    cases b with
    | thread k => trivial
    | driver =>
      cases q with
      | call key r =>
        obtain ⟨htick, hturn⟩ := (hmove.became key.index).clock hne.symm
        have hclock : m'.tick = m.tick ∧ m'.turn = m.turn := by
          cases hmove with
          | turn => exact absurd rfl hne
          | _ => exact ⟨rfl, rfl⟩
        obtain ⟨htick', hturn'⟩ := h
        exact ⟨by rw [htick, htick', hclock.1], by rw [hturn, hturn', hclock.2]⟩
      | _ => trivial
    | future k =>
      cases q with
      | idle => exact Untouched.move h hne.symm hmove
      | call key r | leaked key r =>
        have hle : m.occupancy key.index ≤ m'.occupancy key.index := by
          cases hmove with
          | @create _ j' =>
            by_cases hj : key.index = j'
            · simp [Shared.create, hj]
            · simp [Shared.create, hj]
          | _ => exact Nat.le_refl _
        exact Nat.le_trans h hle
      | _ => trivial

theorem clocked_of_reachable (h : (machine interest).Reachable c) :
    System.Holds Clocked (fun i m p ↦ Placed m i p) c := by
  refine System.holds_of_reachableUnder h ?_ ?_ ?_
  · rintro c rfl
    refine ⟨⟨rfl, fun j ↦ Nat.le_refl _, fun j _ ↦ Or.inl rfl⟩, fun i ↦ ?_⟩
    cases i with
    | source k => trivial
    | io b =>
      cases b with
      | future k => exact fun j ↦ ⟨rfl, rfl, rfl⟩
      | driver | thread => trivial
  · intro c i a m p hreach hc _ hstep
    have hholds := holds_of_reachable hreach
    exact ⟨hc.1.move hholds.1 (hholds.2 i) (move_of_step hstep),
      (hc.2 i).move hholds.1 (move_of_step hstep)⟩
  · intro c i a m p _ hc _ hstep j hj
    exact (hc.2 j).other hj (move_of_step hstep)

/-! ## The simulation -/

variable {mine : ℕ → Bool} {caller : Direction → Option Caller} {turn : ℕ} {e : Io.Shared}

/-- A future that has touched nothing makes no difference. -/
theorem patch_made {k : ℕ} (h : Untouched m k) :
    patch (Function.update mine k true) caller turn (m.entry j) =
      patch mine caller turn (m.entry j) := by
  obtain ⟨hnode, hstored, hresults⟩ := h j
  have hite {α : Type} (f : ℕ → α) (z : α) (hf : f k = z) :
      (fun x ↦ if Function.update mine k true x then f x else z) =
        fun x ↦ if mine x then f x else z := by
    funext x
    by_cases hx : x = k
    · simp [hx, hf]
    · simp [hx]
  simp only [patch, hite _ _ hnode, hite _ _ hstored, hite _ _ hresults]

theorem patch_turn : { patch mine caller turn e with
    tick := (patch mine caller turn e).tick + 1#8, turn := turn + 1 } =
      patch mine caller (turn + 1) e := by
  simp [patch, BitVec.ofNat_add]

/-- A turn of the driver, with or without an event for the slot. -/
theorem reachable_turn {s : Io.State} (event : Option Io.Event)
    (h : (Io.machine interest).Reachable ⟨patch mine caller turn e, s.pc⟩)
    (hidle : s.pc .driver = .idle) :
    (Io.machine interest).Reachable ⟨patch mine caller (turn + 1) e,
      Function.update s.pc .driver (event.elim .idle fun e ↦ .setLoad (.fromMio e))⟩ := by
  refine .step (a := (.driver, .turn event)) h trivial (System.machine_step_eq_some.mpr
    ⟨patch mine caller (turn + 1) e, _, ?_, rfl⟩)
  change Io.driverStep interest (patch mine caller turn e) (s.pc .driver) (.turn event) = _
  rw [hidle, ← patch_turn]
  cases event <;> rfl

theorem slotTurn_of_eq (h : (m.entry j).turn = m.turn) : m.slotTurn j = m.turn := by
  rw [Shared.slotTurn, if_neg (by omega)]

theorem slotTurn_of_lt (h : (m.entry j).turn < m.turn) : m.slotTurn j + 1 = m.turn := by
  rw [Shared.slotTurn, if_pos h]
  omega

/-- A step in the slot is a step of the view. -/
theorem exists_step_patch {b : Io.Agent} {p p' : Io.Pc} {a : Io.Label} {e' : Io.Shared}
    (hdriver : b = .driver → a = .step ∧ e.tick = BitVec.ofNat 8 turn ∧ e.turn = turn ∧
      ∀ k ∈ e.list, mine k = true)
    (hfuture : ∀ k, b = .future k → mine k = true)
    (h : Io.step interest b e p a = some (e', p')) :
    ∃ caller', Io.step interest b (patch mine caller turn e) p a =
      some (patch mine caller' turn e', p') := by
  cases b with
  | driver =>
    obtain ⟨rfl, htick, hturn, hlist⟩ := hdriver rfl
    exact ⟨caller, driverStep_patch hlist htick hturn h⟩
  | future k => exact ⟨caller, futureStep_patch (hfuture k rfl) h⟩
  | thread k => exact threadStep_patch h

theorem exists_view_of_did (hc : System.Holds Clocked (fun i m p ↦ Placed m i p) c)
    (hview : (Io.machine interest).Reachable (view c j caller)) (hdid : Did interest c d j)
    (hj : d.shared.phase j ≠ .free) :
    ∃ caller', (Io.machine interest).Reachable (view d j caller') := by
  have hslot (hentry : (d.shared.entry j).turn = (c.shared.entry j).turn)
      (hturn : d.shared.turn = c.shared.turn) : d.shared.slotTurn j = c.shared.slotTurn j := by
    rw [Shared.slotTurn, Shared.slotTurn, hentry, hturn]
  cases hdid with
  | nothing hentry hturn hmine hpc =>
    refine ⟨caller, ?_⟩
    rwa [view, hmine, hslot (by rw [hentry]) hturn, hentry, hpc]
  | made k hk hentry hturn hmine hpc =>
    refine ⟨caller, ?_⟩
    have huntouched : Untouched c.shared k := hc.agent hk
    rwa [view, hmine, hslot (by rw [hentry]) hturn, hentry, hpc, patch_made huntouched]
  | turn hdriver hentry hturn hmine hpc =>
    refine ⟨caller, ?_⟩
    have hle := hc.1.turn j
    have hnow : d.shared.slotTurn j = c.shared.turn := by
      have hlt : (d.shared.entry j).turn < d.shared.turn := by
        rw [hentry, hturn]
        omega
      have := slotTurn_of_lt hlt
      omega
    rw [view, hmine, hnow, hentry, hpc]
    rcases Nat.lt_or_eq_of_le hle with hlt | heq
    · -- the last turn had no event for the slot
      have hsame : Function.update (viewPc c j) .driver .idle = viewPc c j :=
        Function.update_eq_self_iff.mpr hdriver.symm
      have hnext := reachable_turn (s := view c j caller) none hview hdriver
      rw [slotTurn_of_lt hlt] at hnext
      exact hsame ▸ hnext
    · rwa [← slotTurn_of_eq heq]
  | event event hdriver hone hentry hturn hmine hpc =>
    refine ⟨caller, ?_⟩
    have hnow : d.shared.slotTurn j = c.shared.turn := by
      rw [slotTurn_of_eq (by rw [hentry, hturn]), hturn]
    have hnext := reachable_turn (s := view c j caller) (some event) hview hdriver
    rw [slotTurn_of_lt hone] at hnext
    rw [view, hmine, hnow, hentry, hpc]
    exact hnext
  | io b a e p hcall hfuture hstep hentry hturn hmine hpc =>
    have hmove := Io.move_of_step hstep
    have hclock := hmove.clock fun hb ↦ (hcall hb).1
    have hdriver (hb : b = .driver) : a = .step ∧
        (c.shared.entry j).tick = BitVec.ofNat 8 (c.shared.slotTurn j) ∧
        (c.shared.entry j).turn = c.shared.slotTurn j ∧
        ∀ k ∈ (c.shared.entry j).list, Slab.mine c j k = true := by
      obtain ⟨ha, r, hr⟩ := hcall hb
      obtain ⟨htick, hnow⟩ := hc.agent hr
      have hslotTurn : c.shared.slotTurn j = c.shared.turn := slotTurn_of_eq hnow
      refine ⟨ha, ?_, hnow.trans hslotTurn.symm, fun k hk ↦ ?_⟩
      · rw [hslotTurn, ← hc.1.tick]
        exact htick
      · -- a node of the list is linked in the view, so its future is one of the view
        obtain ⟨waker, hwaker⟩ := ((Io.sound_of_reachableUnder hview).1.mem_iff k).mp hk
        by_contra hmine
        simp [view, patch, hmine] at hwaker
    obtain ⟨caller', hstep'⟩ : ∃ caller', Io.step interest b (view c j caller).shared
        (viewPc c j b) a = some (patch (Slab.mine c j) caller' (c.shared.slotTurn j) e, p) :=
      exists_step_patch hdriver hfuture hstep
    refine ⟨caller', .step (a := (b, a)) hview trivial (System.machine_step_eq_some.mpr
      ⟨_, p, hstep', ?_⟩)⟩
    rw [view, hmine, hslot (by rw [hentry]; exact hclock.2) hturn, hentry, hpc]
    rfl
  | ends hfree => exact absurd hfree hj

/-- Nobody has the key of a use that is still to come. -/
theorem occupancy_le (hc : (machine interest).Reachable c) {b : Io.Agent} {key : Key} {p : Io.Pc}
    (h : c.pc (.io b) = .call key p ∨ c.pc (.io b) = .leaked key p) :
    key.occupancy ≤ c.shared.occupancy key.index := by
  have hholds := holds_of_reachable hc
  rcases h with h | h
  · cases b with
    | driver => exact Nat.le_of_eq (hholds.agent h).2.symm
    | thread k => exact Nat.le_of_eq (hholds.1.occupied key (hholds.agent h).1).2.symm
    | future k => exact (clocked_of_reachable hc).agent h
  · cases b with
    | driver | thread => exact (hholds.agent h).elim
    | future k => exact (clocked_of_reachable hc).agent h

theorem ne_use_of_begins (hc : (machine interest).Reachable c) {b : Io.Agent} {key : Key}
    {p : Io.Pc} (h : c.pc (.io b) = .call key p ∨ c.pc (.io b) = .leaked key p)
    (huse : d.shared.occupancy j = c.shared.occupancy j + 1) : key ≠ d.shared.use j := by
  rintro rfl
  have hle := occupancy_le hc h
  simp only [Shared.use] at hle
  omega

/-- A new use begins as a new `ScheduledIo`. -/
theorem view_of_begins (hc : (machine interest).Reachable c)
    (hdefault : IsDefault (c.shared.entry j))
    (hentry : d.shared.entry j = fresh (c.shared.entry j))
    (huse : d.shared.occupancy j = c.shared.occupancy j + 1)
    (hpc : ∀ i, d.pc (.io i) = c.pc (.io i)) :
    view d j (fun _ ↦ none) =
      .new (c.shared.entry j).word (c.shared.entry j).slot (d.shared.slotTurn j) := by
  have hmine : Slab.mine d j = fun _ ↦ false := by
    funext k
    rw [Slab.mine, hpc]
    cases hk : c.pc (.io (.future k)) with
    | call key p => exact decide_eq_false (ne_use_of_begins hc (Or.inl hk) huse)
    | leaked key p => exact decide_eq_false (ne_use_of_begins hc (Or.inr hk) huse)
    | _ => rfl
  have hview : viewPc d j = start := by
    funext b
    rw [viewPc, hpc]
    cases hb : c.pc (.io b) with
    | call key p => exact if_neg (ne_use_of_begins hc (Or.inl hb) huse)
    | leaked key p => exact if_neg (ne_use_of_begins hc (Or.inr hb) huse)
    | _ => rfl
  rw [view, hmine, hview, hentry, Io.State.new]
  simp only [patch, fresh, hdefault.list, hdefault.lock]
  congr 1

theorem invariant_of_reachableUnder (h : (machine interest).ReachableUnder Regular c) :
    Invariant interest c := by
  refine h.invariant ?_ fun c a d _ hc hG hstep ↦ hc.step hG.1 hstep
  rintro c rfl
  exact invariant_new

theorem exists_view (h : (machine interest).ReachableUnder Regular c) :
    ∀ j, c.shared.phase j ≠ .free →
      ∃ caller, (Io.machine interest).Reachable (view c j caller) := by
  induction h with
  | init h =>
    subst h
    exact fun j hj ↦ absurd rfl hj
  | @step c d a hreach hG hstep ih =>
    intro j hj
    have hreachable := hreach.reachable
    have hclocked := clocked_of_reachable hreachable
    by_cases hfree : c.shared.phase j = .free
    · obtain ⟨hentry, -, huse, hpc⟩ := begins_of_step hreachable hstep hfree hj
      have hdefault := (invariant_of_reachableUnder hreach).kept.free j hfree
      refine ⟨fun _ ↦ none, ?_⟩
      rw [view_of_begins hreachable hdefault hentry huse hpc]
      exact .init ⟨_, _, _, hclocked.1.word j hfree, rfl⟩
    · obtain ⟨caller, hview⟩ := ih j hfree
      exact exists_view_of_did hclocked hview (did_of_step hreachable hG.2 hstep hfree) hj

/-- **Every slot refines a `ScheduledIo`**: in every run of the slab that clears idle slots only and
has one event for a slot in a turn, what each slot in use sees is a state that a single
`ScheduledIo` reaches. -/
theorem reachable_view (interest : ℕ → Interest) (c : State) (j : ℕ)
    (h : (machine interest).ReachableUnder Regular c) (hj : c.shared.phase j ≠ .free) :
    ∃ caller, (Io.machine interest).Reachable (view c j caller) :=
  exists_view h j hj

/-- A future that waits is one of the futures of its slot, which is in use. -/
theorem mine_of_waiting (hc : (machine interest).Reachable c) {k : ℕ} {key : Key} {p : Io.Pc}
    (hpc : c.pc (.io (.future k)) = .call key p) (hp : p ≠ .dropped) :
    c.shared.phase key.index ≠ .free ∧ key = c.shared.use key.index ∧
      Slab.mine c key.index k = true := by
  have hholds := holds_of_reachable hc
  have hok := (hholds.agent hpc).resolve_left hp
  have hoccupied := hholds.1.occupied key hok.1
  have hkey := hoccupied.eq_use
  refine ⟨by simp [hoccupied.1], hkey, ?_⟩
  rw [Slab.mine, hpc, ← hkey]
  exact decide_eq_true rfl

/-- **No registration misses its events**: a future that waits, of any registration, in whatever
slot and after however many others there, has been woken since it stored its waker, once the `wake`
of an event that concerns it has returned. -/
theorem woken_of_returned (interest : ℕ → Interest) (c : State) (k i : ℕ) (key : Key)
    (h : (machine interest).ReachableUnder Regular c)
    (hpc : c.pc (.io (.future k)) = .call key .waiting)
    (hevent : Io.Matches (c.shared.entry key.index).log (.fromInterest (interest k)) i)
    (hrecheck : ((c.shared.entry key.index).stored k).recheck ≤ i)
    (hreturned : i < (c.shared.entry key.index).returned) :
    ((c.shared.entry key.index).stored k).waker ∈
      (c.shared.entry key.index).woken.drop ((c.shared.entry key.index).stored k).wakes := by
  obtain ⟨hphase, hkey, hmine⟩ := mine_of_waiting h.reachable hpc (by simp)
  obtain ⟨caller, hview⟩ := exists_view h key.index hphase
  have hserved := (Io.served_of_reachableUnder hview).1
  have hsound := (Io.sound_of_reachableUnder hview).2 (.future k)
  have hwaiting : (view c key.index caller).pc (.future k) = .waiting := by
    change viewPc c key.index (.future k) = _
    rw [viewPc, hpc, ← hkey]
    simp [Pc.within]
  have hstored : (view c key.index caller).shared.stored k = (c.shared.entry key.index).stored k :=
    if_pos hmine
  have hne := hsound.node k rfl
  rw [hwaiting] at hne
  rw [← hstored] at hrecheck ⊢
  cases hk : (view c key.index caller).shared.node k with
  | new => exact absurd hk hne
  | linked waker =>
    have hle := (hserved.linked k waker hk).2 i hevent hrecheck
    have hlist := hserved.returned_le_listDone
    exact absurd (Nat.le_trans hlist hle) (Nat.not_le.mpr hreturned)
  | removed =>
    refine (hserved.removed k hk).resolve_right fun hcalled ↦ ?_
    exact absurd (hcalled.2 i hevent hrecheck) (Nat.not_le.mpr hreturned)

/-! ## A slot that is used twice -/

/-- Slots 0 and 1 are occupied, slot 0 has an event, and its registration is dropped. Slot 0 is used
again, a future waits there, and in the next turn both slots have events. -/
def usedTwice : List (Agent × Label) :=
  [(.source 0, .create (some 0)), (.source 0, .register true), (.source 1, .create (some 1)),
    (.source 1, .register true), (.io .driver, .turn), (.io .driver, .event ⟨0, 1⟩ Io.readable)] ++
    List.replicate 6 (.io .driver, .io .step) ++
    [(.source 0, .drop ⟨0, 1⟩), (.source 2, .create (some 0)), (.source 2, .register true),
      (.io (.future 0), .readiness ⟨0, 2⟩), (.io (.future 0), .io (.poll 7))] ++
    List.replicate 8 (.io (.future 0), .io .step) ++
    [(.io .driver, .turn), (.io .driver, .event ⟨1, 1⟩ Io.readable)] ++
    List.replicate 6 (.io .driver, .io .step) ++ [(.io .driver, .event ⟨0, 2⟩ Io.readable)] ++
    List.replicate 8 (.io .driver, .io .step)

def afterBoth : State :=
  ((machine fun _ ↦ .READABLE).exec .new usedTwice).get (by decide +kernel)

theorem reachableUnder_afterBoth :
    (machine fun _ ↦ .READABLE).ReachableUnder Regular afterBoth :=
  (Machine.ReachableUnder.init rfl).of_isSome_exec usedTwice (by decide +kernel) _

theorem reachable_view_afterBoth : afterBoth.shared.phase 0 ≠ .free ∧
    ∃ caller, (Io.machine fun _ ↦ .READABLE).Reachable (view afterBoth 0 caller) := by
  have hphase : afterBoth.shared.phase 0 ≠ .free := by decide +kernel
  exact ⟨hphase, reachable_view _ _ _ reachableUnder_afterBoth hphase⟩

theorem woken_afterBoth : afterBoth.pc (.io (.future 0)) = .call ⟨0, 2⟩ .waiting ∧
    ((afterBoth.shared.entry 0).stored 0).waker ∈
      (afterBoth.shared.entry 0).woken.drop ((afterBoth.shared.entry 0).stored 0).wakes := by
  have hpc : afterBoth.pc (.io (.future 0)) = .call ⟨0, 2⟩ .waiting := by decide +kernel
  have hevent : Io.Matches (afterBoth.shared.entry 0).log (.fromInterest .READABLE) 0 :=
    ⟨2, .READABLE, by decide +kernel, 0, by decide, by decide⟩
  exact ⟨hpc, woken_of_returned _ _ 0 0 ⟨0, 2⟩ reachableUnder_afterBoth hpc hevent
    (by decide +kernel) (by decide +kernel)⟩

end ArcDischarge.Slab
