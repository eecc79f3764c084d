import ArcDischarge.Io.Waiters
import ArcDischarge.Slab.Occupancy

/-!
# The locks of the slots

Only an agent in a call on a slot has the lock of its waiters. So the lock is free when nobody
borrows the registration and the driver is elsewhere, which is when a slot is cleared.
-/

namespace ArcDischarge.Slab

open Io (Interest)

variable {interest : ℕ → Interest} {m m' : Shared} {p p' q : Pc} {a : Label} {i i' : Agent}

section

variable {e e' : Io.Shared} {b b' : Io.Agent} {r r' : Io.Pc} {l : Io.Label}

/-- Nobody gets the lock of a slot through a step of somebody else. -/
theorem lock_update_of_ne {j j' : ℕ} (hmove : Io.Move interest (m.entry j) b r l e' r')
    (hne : b' ≠ b) (h : (Function.update m.entry j e j').lock = some b')
    (he : e.lock = e'.lock) : (m.entry j').lock = some b' := by
  by_cases hj : j' = j
  · rw [hj, Function.update_self, he] at h
    rw [hj]
    exact (Io.lockStep_of_move hmove).of_held_of_ne hne h
  · rwa [Function.update_of_ne hj] at h

/-- Whoever has the lock of a slot is between its acquisition and its release. -/
theorem locks_update {j j' : ℕ} (hmove : Io.Move interest (m.entry j) b r l e' r')
    (hb : ∀ j', (m.entry j').lock = some b → j = j' ∧ r.locks)
    (h : (Function.update m.entry j e j').lock = some b) (he : e.lock = e'.lock) :
    j = j' ∧ r'.locks := by
  by_cases hj : j' = j
  · rw [hj, Function.update_self, he] at h
    exact ⟨hj.symm, (Io.lockStep_of_move hmove).inside_of_held (fun hlock ↦ (hb j hlock).2) h⟩
  · rw [Function.update_of_ne hj] at h
    exact absurd (hb j' h).1.symm hj

end

/-- In a call on slot `j`, between the acquisition of its lock and the release. -/
def Pc.Locks (j : ℕ) : Pc → Prop
  | .call key r => key.index = j ∧ r.locks
  | _ => False

/-- Only an agent in such a call has the lock of a slot. -/
def LockOk (m : Shared) : Agent → Pc → Prop
  | .io b, p => ∀ j, (m.entry j).lock = some b → p.Locks j
  | .source _, _ => True

/-- A step that is none of a call leaves the locks alone. -/
theorem lock_of_update {j j' : ℕ} {e : Io.Shared} {b : Io.Agent}
    (h : (Function.update m.entry j e j').lock = some b) (he : e.lock = (m.entry j).lock) :
    (m.entry j').lock = some b := by
  by_cases hj : j' = j
  · rwa [hj, Function.update_self, he, ← hj] at h
  · rwa [Function.update_of_ne hj] at h

theorem LockOk.move (h : LockOk m i p) (hmove : Move interest m i p a m' p') :
    LockOk m' i p' := by
  cases hmove with
  | event => exact fun j hj ↦ (h j (lock_of_update hj rfl)).elim
  | driver hio | thread hio | future hio | futureDrop hio =>
    exact fun j hj ↦ locks_update hio h hj rfl
  | call _ _ hio => exact fun j hj ↦ locks_update hio (fun j' hj' ↦ (h j' hj').elim) hj rfl
  | driverDone hio | driverClears hio | threadDone hio =>
    exact fun j hj ↦ (locks_update hio h hj rfl).2
  | readiness => exact fun j hj ↦ (h j hj).elim
  | pollFails hio =>
    refine fun j hj ↦ ?_
    have hlocks := (h j hj).2
    cases hio <;> exact hlocks
  | leak hp =>
    refine fun j hj ↦ ?_
    have hlocks := (h j hj).2
    rcases hp with rfl | rfl | rfl <;> exact hlocks
  | turn | noEvent | callFails => exact h
  | full | create | register | registerFails | dropMarks | dropClears => trivial

theorem LockOk.other (h : LockOk m i' q) (hne : i' ≠ i) (hmove : Move interest m i p a m' p') :
    LockOk m' i' q := by
  cases i' with
  | source k => trivial
  | io b' =>
    intro j hj
    refine h j ?_
    have hb' {b : Io.Agent} (hb : Agent.io b' ≠ .io b) : b' ≠ b := fun heq ↦ hb (heq ▸ rfl)
    cases hmove with
    | create | dropClears | event => exact lock_of_update hj rfl
    | driver hio | driverDone hio | driverClears hio | call _ _ hio | thread hio | threadDone hio
    | future hio | futureDrop hio => exact lock_update_of_ne hio (hb' hne) hj rfl
    | _ => exact hj

theorem lockOk_of_reachable {c : State} (h : (machine interest).Reachable c) :
    ∀ i, LockOk c.shared i (c.pc i) := by
  refine (System.holds_of_reachableUnder (J := fun _ ↦ True) (I := fun i m p ↦ LockOk m i p) h
    ?_ ?_ ?_).2
  · rintro c rfl
    refine ⟨trivial, fun i ↦ ?_⟩
    cases i with
    | source k => trivial
    | io b => exact fun j hj ↦ by cases hj
  · intro c i a m p _ hc _ hstep
    exact ⟨trivial, (hc.2 i).move (move_of_step hstep)⟩
  · intro c i a m p _ hc _ hstep j hj
    exact (hc.2 j).other hj (move_of_step hstep)

theorem driverAt_of_locks {j : ℕ} (hok : Ok m (.io .driver) p) (h : p.Locks j) :
    m.driverAt = some j := by
  cases p with
  | call key r => exact hok.1.trans (congrArg some h.1)
  | _ => exact h.elim

/-- When nobody borrows a slot, and the driver is not at its waiters, the lock is free. -/
theorem lock_eq_none {c : State} (hc : (machine interest).Reachable c) {j : ℕ}
    (hborrows : c.shared.borrows j = []) (hdriver : ¬(c.pc (.io .driver)).Locks j) :
    (c.shared.entry j).lock = none := by
  cases hlock : (c.shared.entry j).lock with
  | none => rfl
  | some b =>
    have hlocks := lockOk_of_reachable hc (.io b) j hlock
    have hok := (holds_of_reachable hc).2 (.io b)
    cases b with
    | driver => exact absurd hlocks hdriver
    | thread k =>
      cases hp : c.pc (.io (.thread k)) with
      | call key r =>
        -- a thread in a call borrows the registration
        rw [hp] at hlocks hok
        have hmem := hok.2
        rw [hlocks.1, hborrows] at hmem
        cases hmem
      | _ =>
        rw [hp] at hlocks
        exact hlocks.elim
    | future k =>
      cases hp : c.pc (.io (.future k)) with
      | call key r =>
        rw [hp] at hlocks hok
        -- so does a future, unless it is done, and then it has no lock
        rcases hok with rfl | hok
        · exact hlocks.2.elim
        · have hmem := hok.2
          rw [hlocks.1, hborrows] at hmem
          cases hmem
      | _ =>
        rw [hp] at hlocks
        exact hlocks.elim

end ArcDischarge.Slab
