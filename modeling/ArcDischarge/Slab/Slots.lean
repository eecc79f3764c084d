import ArcDischarge.Slab.Isolation
import ArcDischarge.Slab.View

/-!
# Every slot is a `ScheduledIo` on its own

The slab refines the machine of `Io/Model.lean`, slot by slot: whatever sources, calls, futures and
the driver do in any number of slots, what one slot sees of it between two uses is a run of a single
`ScheduledIo`. So what holds in every state of that machine holds of every slot of the slab.

Two things are needed for it. A slot must be cleared when nobody's waker is there, or the next
registration begins with the waiters of the last one (`Slab/Isolation.lean`). And a turn of the
driver must not have two events for one slot, for then the second has the tick of the first.
-/

namespace ArcDischarge.Slab

open Io (Caller Direction Event Interest Word)

/-! ## What a slot sees -/

/-- The key of the current use of slot `j`. -/
def Shared.use (m : Shared) (j : ℕ) : Key := ⟨j, m.occupancy j⟩

/-- Where an agent begins. -/
def start : Io.Agent → Io.Pc
  | .future _ => .init
  | .driver | .thread _ => .idle

/-- Where an agent is with the use `key` of its slot. -/
def Pc.within (key : Key) (i : Io.Agent) : Pc → Io.Pc
  | .call key' p | .leaked key' p => if key' = key then p else start i
  | _ => start i

/-- A call, or a future, of the use `key` of its slot. -/
def Pc.isCall (key : Key) : Pc → Bool
  | .call key' _ | .leaked key' _ => decide (key' = key)
  | _ => false

/-- The turns that slot `j` has seen: a turn without an event counts when the next one begins. -/
def Shared.slotTurn (m : Shared) (j : ℕ) : ℕ :=
  if (m.entry j).turn < m.turn then m.turn - 1 else m.turn

def viewPc (c : State) (j : ℕ) (i : Io.Agent) : Io.Pc :=
  (c.pc (.io i)).within (c.shared.use j) i

/-- The futures that were made for the registration in slot `j`. -/
def mine (c : State) (j k : ℕ) : Bool := (c.pc (.io (.future k))).isCall (c.shared.use j)

def view (c : State) (j : ℕ) (caller : Direction → Option Caller) : Io.State :=
  ⟨patch (mine c j) caller (c.shared.slotTurn j) (c.shared.entry j), viewPc c j⟩

/-- A turn has at most one event for a slot. -/
def OneEvent (c : State) : Agent × Label → Prop
  | (.io .driver, .event key _) =>
    c.shared.Occupied key → (c.shared.entry key.index).turn < c.shared.turn
  | _ => True

instance (c : State) : ∀ a, Decidable (OneEvent c a)
  | (.io .driver, .event key _) =>
    inferInstanceAs (Decidable (c.shared.Occupied key →
      (c.shared.entry key.index).turn < c.shared.turn))
  | (.source _, _) | (.io (.thread _), _) | (.io (.future _), _) =>
    inferInstanceAs (Decidable True)
  | (.io .driver, .create _) | (.io .driver, .register _) | (.io .driver, .drop _)
  | (.io .driver, .turn) | (.io .driver, .readiness _) | (.io .driver, .call _ _)
  | (.io .driver, .io _) | (.io .driver, .leak) => inferInstanceAs (Decidable True)

instance (c : State) (a : Agent × Label) : Decidable (ClearsIdle c a) :=
  decidable_of_iff (∀ j ∈ clearing c a, ((c.shared.entry j).slot .read = none ∧
    (c.shared.entry j).slot .write = none) ∧ (c.shared.entry j).list = [])
    (forall₂_congr fun _ _ ↦ and_congr_left fun _ ↦
      ⟨fun h d ↦ Direction.casesOn d h.1 h.2, fun h ↦ ⟨h .read, h .write⟩⟩)

def Regular (c : State) (a : Agent × Label) : Prop := ClearsIdle c a ∧ OneEvent c a

instance (c : State) (a : Agent × Label) : Decidable (Regular c a) :=
  inferInstanceAs (Decidable (ClearsIdle c a ∧ OneEvent c a))

/-! ## What a step does in a slot -/

/-- A step from `c` to `d`, as slot `j` sees it, which is in use. -/
inductive Did (interest : ℕ → Interest) (c d : State) (j : ℕ) : Prop where
  | nothing (hentry : d.shared.entry j = c.shared.entry j) (hturn : d.shared.turn = c.shared.turn)
      (hmine : mine d j = mine c j) (hpc : viewPc d j = viewPc c j)
  /-- A future is made for the registration in the slot. -/
  | made (k : ℕ) (hk : c.pc (.io (.future k)) = .idle)
      (hentry : d.shared.entry j = c.shared.entry j) (hturn : d.shared.turn = c.shared.turn)
      (hmine : mine d j = Function.update (mine c j) k true) (hpc : viewPc d j = viewPc c j)
  | turn (hdriver : viewPc c j .driver = .idle) (hentry : d.shared.entry j = c.shared.entry j)
      (hturn : d.shared.turn = c.shared.turn + 1) (hmine : mine d j = mine c j)
      (hpc : viewPc d j = viewPc c j)
  | event (event : Event) (hdriver : viewPc c j .driver = .idle)
      (hone : (c.shared.entry j).turn < c.shared.turn)
      (hentry : d.shared.entry j =
        { c.shared.entry j with tick := c.shared.tick, turn := c.shared.turn })
      (hturn : d.shared.turn = c.shared.turn) (hmine : mine d j = mine c j)
      (hpc : viewPc d j = Function.update (viewPc c j) .driver (.setLoad (.fromMio event)))
  | io (i : Io.Agent) (a : Io.Label) (e : Io.Shared) (p : Io.Pc)
      (hcall : i = .driver → a = .step ∧ ∃ p, c.pc (.io .driver) = .call (c.shared.use j) p)
      (hfuture : ∀ k, i = .future k → mine c j k = true)
      (hstep : Io.step interest i (c.shared.entry j) (viewPc c j i) a = some (e, p))
      (hentry : d.shared.entry j = e) (hturn : d.shared.turn = c.shared.turn)
      (hmine : mine d j = mine c j) (hpc : viewPc d j = Function.update (viewPc c j) i p)
  | ends (hfree : d.shared.phase j = .free)

variable {interest : ℕ → Interest} {c d : State} {j : ℕ} {m : Shared} {q : Pc}

/-! ### How the view changes -/

/-- A step of somebody who is not in a slot. -/
theorem viewPc_of_source {k : ℕ} (huse : m.use j = c.shared.use j) :
    viewPc ⟨m, Function.update c.pc (.source k) q⟩ j = viewPc c j := by
  funext i
  simp [viewPc, huse]

theorem mine_of_source {k : ℕ} (huse : m.use j = c.shared.use j) :
    mine ⟨m, Function.update c.pc (.source k) q⟩ j = mine c j := by
  funext k
  simp [mine, huse]

theorem viewPc_of_io {i : Io.Agent} {p : Io.Pc} (huse : m.use j = c.shared.use j)
    (hq : q.within (c.shared.use j) i = p) :
    viewPc ⟨m, Function.update c.pc (.io i) q⟩ j = Function.update (viewPc c j) i p := by
  funext i'
  by_cases hi : i' = i
  · subst hi
    simp [viewPc, huse, hq]
  · simp [viewPc, huse, hi]

theorem viewPc_same {i : Io.Agent} (huse : m.use j = c.shared.use j)
    (hq : q.within (c.shared.use j) i = viewPc c j i) :
    viewPc ⟨m, Function.update c.pc (.io i) q⟩ j = viewPc c j :=
  (viewPc_of_io huse hq).trans (Function.update_eq_self _ _)

/-- The futures of a slot are those made for it, and do not change. -/
theorem mine_of_io {i : Io.Agent} (huse : m.use j = c.shared.use j)
    (hcall : ∀ k, i = .future k →
      q.isCall (c.shared.use j) = (c.pc (.io (.future k))).isCall (c.shared.use j)) :
    mine ⟨m, Function.update c.pc (.io i) q⟩ j = mine c j := by
  funext k
  by_cases hi : i = .future k
  · subst hi
    simp [mine, huse, hcall k rfl]
  · have hne : Agent.io (.future k) ≠ .io i := fun h ↦ hi (Agent.io.inj h).symm
    simp [mine, huse, hne]

/-! ### The steps of sources -/

theorem did_of_source {k : ℕ} {p : Pc} {a : Label} (hj : c.shared.phase j ≠ .free)
    (hmove : Move interest c.shared (.source k) p a m q) :
    Did interest c ⟨m, Function.update c.pc (.source k) q⟩ j := by
  cases hmove with
  | full | register | registerFails | dropMarks =>
    exact .nothing rfl rfl (mine_of_source rfl) (viewPc_of_source rfl)
  | @create _ j' hfree =>
    have hne : j ≠ j' := fun heq ↦ hj (heq ▸ hfree)
    have huse : (c.shared.create k j').use j = c.shared.use j := by
      simp [Shared.use, Shared.create, hne]
    exact .nothing (Function.update_of_ne hne _ _) rfl (mine_of_source huse) (viewPc_of_source huse)
  | @dropClears _ key =>
    by_cases hkey : j = key.index
    · subst hkey
      exact .ends (Function.update_self _ _ _)
    · exact .nothing (Function.update_of_ne hkey _ _) rfl (mine_of_source rfl)
        (viewPc_of_source rfl)

/-! ### The steps of calls and futures -/

/-- A thread or the driver is outside between two calls. -/
def Pc.At (key : Key) (i : Io.Agent) (p : Io.Pc) (q : Pc) : Prop :=
  q = .call key p ∨ q = .idle ∧ p = .idle ∧ ∀ k, i ≠ .future k

theorem Pc.At.within {key : Key} {i : Io.Agent} {p : Io.Pc} (h : q.At key i p) :
    q.within key i = p := by
  rcases h with rfl | ⟨rfl, rfl, hi⟩
  · simp [Pc.within]
  · cases i with
    | future k => exact absurd rfl (hi k)
    | driver | thread => rfl

theorem Pc.At.within_of_ne {key key' : Key} {i : Io.Agent} {p : Io.Pc} (h : q.At key i p)
    (hne : key ≠ key') : q.within key' i = start i := by
  rcases h with rfl | ⟨rfl, -, -⟩
  · simp [Pc.within, hne]
  · rfl

theorem Pc.At.isCall {key key' : Key} {k : ℕ} {p : Io.Pc} (h : q.At key (.future k) p) :
    q.isCall key' = decide (key = key') := by
  rcases h with rfl | ⟨-, -, hi⟩
  · rfl
  · exact absurd rfl (hi k)

/-- A step on the slot of `key`, of which `key` is the current use. -/
theorem did_of_call {key : Key} {i : Io.Agent} {p p' : Io.Pc} {a : Io.Label} {e : Io.Shared}
    (hkey : key = c.shared.use key.index) (hp : (c.pc (.io i)).At key i p) (hq : q.At key i p')
    (hcall : i = .driver → a = .step ∧ c.pc (.io .driver) = .call key p)
    (hstep : Io.step interest i (c.shared.entry key.index) p a = some (e, p'))
    (hentry : m.entry = Function.update c.shared.entry key.index e)
    (hturn : m.turn = c.shared.turn) (huse : m.occupancy = c.shared.occupancy) :
    Did interest c ⟨m, Function.update c.pc (.io i) q⟩ j := by
  have huse' : m.use j = c.shared.use j := by rw [Shared.use, huse, Shared.use]
  have hmine : mine ⟨m, Function.update c.pc (.io i) q⟩ j = mine c j := by
    refine mine_of_io huse' fun k hk ↦ ?_
    subst hk
    rw [hp.isCall, hq.isCall]
  by_cases hj : j = key.index
  · subst hj
    have hview : viewPc c key.index i = p := by
      rw [viewPc, ← hkey]
      exact hp.within
    refine .io i a e p' (fun hi ↦ ?_) (fun k hk ↦ ?_) (hview.symm ▸ hstep) ?_ hturn hmine ?_
    · rw [← hkey]
      exact ⟨(hcall hi).1, p, (hcall hi).2⟩
    · subst hk
      rw [mine, hp.isCall, ← hkey]
      exact decide_eq_true rfl
    · change m.entry key.index = e
      rw [hentry, Function.update_self]
    · exact viewPc_of_io huse' (hkey ▸ hq.within)
  · have hne : key ≠ c.shared.use j := fun h ↦ hj (by rw [h, Shared.use])
    refine .nothing ?_ hturn hmine ?_
    · change m.entry j = _
      rw [hentry, Function.update_of_ne hj]
    · exact viewPc_same huse' ((hq.within_of_ne hne).trans (hp.within_of_ne hne).symm)

theorem onEntry_step {i : Io.Agent} {p : Io.Pc} {b : Io.Label} {r : Shared × Io.Pc}
    (h : m.onEntry interest i j p b = some r) :
    ∃ e, Io.step interest i (m.entry j) p b = some (e, r.2) ∧ r.1 = m.setEntry i j p e := by
  obtain ⟨s, hs, rfl⟩ := Option.map_eq_some_iff.mp h
  exact ⟨s.1, hs, rfl⟩

theorem Shared.Occupied.eq_use {key : Key} (h : m.Occupied key) : key = m.use key.index := by
  obtain ⟨index, occupancy⟩ := key
  exact congrArg (Key.mk index) h.2.symm

theorem did_of_thread {k : ℕ} {a : Label} (hsound : Sound c.shared)
    (hok : Ok c.shared (.io (.thread k)) (c.pc (.io (.thread k))))
    (h : threadStep interest k c.shared (c.pc (.io (.thread k))) a = some (m, q)) :
    Did interest c ⟨m, Function.update c.pc (.io (.thread k)) q⟩ j := by
  generalize hpc : c.pc (.io (.thread k)) = p at h hok
  unfold threadStep at h
  split at h
  · rename_i key b
    split at h
    · rename_i hkey
      have hoccupied := hsound.occupied key hkey
      obtain ⟨r, hr, heq⟩ := Option.map_eq_some_iff.mp h
      obtain ⟨e, hstep, hset⟩ := onEntry_step hr
      rw [if_pos hoccupied, hset] at heq
      cases heq
      exact did_of_call hoccupied.eq_use (Or.inr ⟨hpc, rfl, by simp⟩) (Or.inl rfl) (by simp) hstep
        rfl rfl rfl
    · cases h
  · rename_i key b
    have hkey := (hsound.occupied key hok.1).eq_use
    obtain ⟨r, hr, heq⟩ := Option.map_eq_some_iff.mp h
    obtain ⟨e, hstep, hset⟩ := onEntry_step hr
    rw [hset] at heq
    split at heq
    · rename_i hidle
      cases heq
      exact did_of_call hkey (Or.inl hpc) (Or.inr ⟨rfl, hidle, by simp⟩) (by simp) hstep rfl rfl rfl
    · cases heq
      exact did_of_call hkey (Or.inl hpc) (Or.inl rfl) (by simp) hstep rfl rfl rfl
  · cases h

/-- A future is made for some registration. -/
theorem did_of_readiness {k : ℕ} {key : Key} (hpc : c.pc (.io (.future k)) = .idle) :
    Did interest c ⟨c.shared.borrow (.future k) key.index,
      Function.update c.pc (.io (.future k)) (.call key .init)⟩ j := by
  have hview : viewPc ⟨c.shared.borrow (.future k) key.index,
      Function.update c.pc (.io (.future k)) (.call key .init)⟩ j = viewPc c j := by
    refine viewPc_same rfl ?_
    rw [viewPc, hpc]
    exact ite_self (start (.future k))
  by_cases hkey : key = c.shared.use j
  · refine .made k hpc rfl rfl (funext fun k' ↦ ?_) hview
    by_cases hk : k' = k
    · subst hk
      simp [mine, Pc.isCall, hkey, Shared.use, Shared.borrow]
    · simp [mine, hk, Shared.use, Shared.borrow]
  · refine .nothing rfl rfl (mine_of_io rfl fun k' hk' ↦ ?_) hview
    obtain rfl : k = k' := Io.Agent.future.inj hk'
    rw [hpc]
    exact decide_eq_false hkey

/-- A future that is leaked stays in its slot as it is. -/
theorem did_of_leak {k : ℕ} {key : Key} {p : Io.Pc} (hpc : c.pc (.io (.future k)) = .call key p) :
    Did interest c ⟨c.shared.unborrow (.future k) key.index,
      Function.update c.pc (.io (.future k)) (.leaked key p)⟩ j := by
  refine .nothing rfl rfl (mine_of_io rfl fun k' hk ↦ ?_) (viewPc_same rfl ?_)
  · cases hk
    rw [hpc]
    rfl
  · rw [viewPc, hpc]
    rfl

theorem did_of_future {k : ℕ} {a : Label} (hsound : Sound c.shared)
    (hok : Ok c.shared (.io (.future k)) (c.pc (.io (.future k))))
    (h : futureStep interest k c.shared (c.pc (.io (.future k))) a = some (m, q)) :
    Did interest c ⟨m, Function.update c.pc (.io (.future k)) q⟩ j := by
  generalize hpc : c.pc (.io (.future k)) = p at h hok
  -- a future that is still there keeps its registration
  have hkey {key : Key} {p : Io.Pc} {b : Io.Label} {r : Shared × Io.Pc}
      (hok : Ok c.shared (.io (.future k)) (.call key p))
      (hr : c.shared.onEntry interest (.future k) key.index p b = some r) :
      c.shared.Occupied key := by
    rcases hok with rfl | hok
    · cases hr
    · exact hsound.occupied key hok.1
  unfold futureStep at h
  split at h
  · rename_i key
    split at h
    · cases h
      exact did_of_readiness hpc
    · cases h
  · obtain ⟨r, hr, heq⟩ := Option.map_eq_some_iff.mp h
    obtain ⟨e, hstep, hset⟩ := onEntry_step hr
    have hoccupied := hkey hok hr
    rw [if_pos hoccupied, hset] at heq
    cases heq
    exact did_of_call hoccupied.eq_use (Or.inl hpc) (Or.inl rfl) (by simp) hstep rfl rfl rfl
  · obtain ⟨r, hr, heq⟩ := Option.map_eq_some_iff.mp h
    obtain ⟨e, hstep, hset⟩ := onEntry_step hr
    rw [hset] at heq
    cases heq
    exact did_of_call (hkey hok hr).eq_use (Or.inl hpc) (Or.inl rfl) (by simp) hstep rfl rfl rfl
  · obtain ⟨r, hr, heq⟩ := Option.map_eq_some_iff.mp h
    obtain ⟨e, hstep, hset⟩ := onEntry_step hr
    have hoccupied := hkey hok hr
    rw [hset] at heq
    split at heq
    · rename_i hdropped
      rw [hdropped] at hstep
      cases heq
      exact did_of_call hoccupied.eq_use (Or.inl hpc) (Or.inl rfl) (by simp) hstep rfl rfl rfl
    · cases heq
      exact did_of_call hoccupied.eq_use (Or.inl hpc) (Or.inl rfl) (by simp) hstep rfl rfl rfl
  · split at h <;> cases h
    exact did_of_leak hpc
  · cases h

/-! ### The steps of the driver -/

/-- The driver gives back its reference after a call. -/
theorem did_of_release {key : Key} {p : Io.Pc} {e : Io.Shared} (hkey : key = c.shared.use key.index)
    (hpc : c.pc (.io .driver) = .call key p)
    (hstep : Io.step interest .driver (c.shared.entry key.index) p .step = some (e, .idle))
    (h : orPanic (c.shared.setEntry .driver key.index p e)
      ((c.shared.setEntry .driver key.index p e).release key.index) = (m, q)) :
    Did interest c ⟨m, Function.update c.pc (.io .driver) q⟩ j := by
  by_cases hphase : c.shared.phase key.index = .marked
  · obtain ⟨word, hword, -⟩ := e.word.exists_cleared
    have hrelease : (c.shared.setEntry .driver key.index p e).release key.index =
        some { c.shared.setEntry .driver key.index p { e with word } with
          driverAt := none, phase := Function.update c.shared.phase key.index .free } := by
      simp [Shared.release, Shared.setEntry, Shared.clear, hphase, hword]
    rw [hrelease] at h
    cases h
    by_cases hj : j = key.index
    · subst hj
      exact .ends (Function.update_self _ _ _)
    · have hne : key ≠ c.shared.use j := fun h ↦ hj (by rw [h, Shared.use])
      refine .nothing (Function.update_of_ne hj _ _) rfl (mine_of_io rfl (by simp))
        (viewPc_same rfl ?_)
      rw [viewPc, hpc]
      simp [Pc.within, hne]
  · have hrelease : (c.shared.setEntry .driver key.index p e).release key.index =
        some { c.shared.setEntry .driver key.index p e with driverAt := none } := by
      simp [Shared.release, Shared.setEntry, hphase]
    rw [hrelease] at h
    cases h
    exact did_of_call hkey (Or.inl hpc) (Or.inr ⟨rfl, rfl, by simp⟩) (fun _ ↦ ⟨rfl, hpc⟩) hstep
      rfl rfl rfl

theorem did_of_driver {a : Label} (hok : Ok c.shared (.io .driver) (c.pc (.io .driver)))
    (hone : OneEvent c (.io .driver, a))
    (h : driverStep interest c.shared (c.pc (.io .driver)) a = some (m, q)) :
    Did interest c ⟨m, Function.update c.pc (.io .driver) q⟩ j := by
  generalize hpc : c.pc (.io .driver) = p at h hok
  have hidle (hp : p = .idle) : viewPc c j .driver = .idle := by
    rw [viewPc, hpc, hp]
    rfl
  unfold driverStep at h
  split at h
  · cases h
    exact .turn (hidle rfl) rfl rfl (mine_of_io rfl (by simp)) (viewPc_same rfl (hidle rfl).symm)
  · rename_i key event
    split at h
    · rename_i hoccupied
      cases h
      by_cases hj : j = key.index
      · subst hj
        refine .event event (hidle rfl) (hone hoccupied) (Function.update_self _ _ _) rfl
          (mine_of_io rfl (by simp)) (viewPc_of_io rfl ?_)
        rw [← hoccupied.eq_use]
        simp [Pc.within]
      · have hne : key ≠ c.shared.use j := fun h ↦ hj (by rw [h, Shared.use])
        refine .nothing (Function.update_of_ne hj _ _) rfl (mine_of_io rfl (by simp))
          (viewPc_same rfl ?_)
        simp [Pc.within, hne, hidle rfl, start]
    · cases h
      exact .nothing rfl rfl (mine_of_io rfl (by simp)) (viewPc_same rfl (hidle rfl).symm)
  · rename_i key p
    have hkey : key = c.shared.use key.index := by
      obtain ⟨index, occupancy⟩ := key
      exact congrArg (Key.mk index) hok.2.symm
    obtain ⟨r, hr, heq⟩ := Option.map_eq_some_iff.mp h
    obtain ⟨e, hstep, hset⟩ := onEntry_step hr
    rw [hset] at heq
    split at heq
    · rename_i hr2
      rw [hr2] at hstep
      exact did_of_release hkey hpc hstep heq
    · cases heq
      exact did_of_call hkey (Or.inl hpc) (Or.inl rfl) (fun _ ↦ ⟨rfl, hpc⟩) hstep rfl rfl rfl
  · cases h

/-- What any step does in a slot that is in use. -/
theorem did_of_step {a : Agent × Label} (hc : (machine interest).Reachable c) (hone : OneEvent c a)
    (h : (machine interest).step c a = some d) (hj : c.shared.phase j ≠ .free) :
    Did interest c d j := by
  obtain ⟨i, a⟩ := a
  obtain ⟨m, q, hstep, rfl⟩ := System.machine_step_eq_some.mp h
  have hholds := holds_of_reachable hc
  cases i with
  | source k => exact did_of_source hj (move_of_sourceStep hstep)
  | io i =>
    cases i with
    | driver => exact did_of_driver (hholds.2 _) hone hstep
    | thread k => exact did_of_thread hholds.1 (hholds.2 _) hstep
    | future k => exact did_of_future hholds.1 (hholds.2 _) hstep

/-- What a step does in a slot that is not in use. -/
theorem begins_of_step {a : Agent × Label} (hc : (machine interest).Reachable c)
    (h : (machine interest).step c a = some d)
    (hfree : c.shared.phase j = .free) (hj : d.shared.phase j ≠ .free) :
    d.shared.entry j = fresh (c.shared.entry j) ∧ d.shared.turn = c.shared.turn ∧
      d.shared.occupancy j = c.shared.occupancy j + 1 ∧ ∀ i, d.pc (.io i) = c.pc (.io i) := by
  obtain ⟨i, a⟩ := a
  obtain ⟨m, q, hstep, rfl⟩ := System.machine_step_eq_some.mp h
  have hmove : Move interest c.shared i (c.pc i) a m q := move_of_step hstep
  generalize c.pc i = p at hmove
  change m.phase j ≠ .free at hj
  cases hmove with
  | @create k j' =>
    by_cases hjj : j = j'
    · subst hjj
      refine ⟨?_, rfl, ?_, fun i ↦ ?_⟩
      · exact Function.update_self _ _ _
      · exact Function.update_self _ _ _
      · simp
    · exact absurd ((Function.update_of_ne hjj _ _).trans hfree) hj
  | @dropMarks k key hkey =>
    have hoccupied := (holds_of_reachable hc).1.occupied key hkey
    have hne : j ≠ key.index := by
      rintro rfl
      simp [hoccupied.1] at hfree
    exact absurd ((Function.update_of_ne hne _ _).trans hfree) hj
  | @dropClears _ key | @driverClears key =>
    refine absurd ?_ hj
    by_cases hjj : j = key.index
    · subst hjj
      exact Function.update_self _ _ _
    · exact (Function.update_of_ne hjj _ _).trans hfree
  | _ => exact absurd hfree hj

end ArcDischarge.Slab
