import ArcDischarge.Io.Waiters
import ArcDischarge.Slab.Model

/-!
# One slot of the slab, seen on its own

A slot is used again and again, and the driver serves all of them. The view of a slot in use forgets
the rest: the futures of earlier registrations, whose nodes may still be around, count as not made
yet, and the tick is the one that the slot would see if each turn of the driver were its own. An
agent that is elsewhere has not started.

What the program does in the slot does not depend on what the view changes. So a step in the slot is
a step in the view.
-/

namespace ArcDischarge.Slab

open Io (Caller Direction Interest)

/-- The `ScheduledIo` with the futures `mine`, after turn `turn` of its driver. -/
def patch (mine : ℕ → Bool) (caller : Direction → Option Caller) (turn : ℕ) (e : Io.Shared) :
    Io.Shared :=
  { e with node := fun k ↦ if mine k then e.node k else .new
           stored := fun k ↦ if mine k then e.stored k else ⟨0, 0, 0⟩
           results := fun k ↦ if mine k then e.results k else []
           caller, turn
           tick := BitVec.ofNat 8 turn }

section

variable {mine : ℕ → Bool} {caller : Direction → Option Caller} {turn : ℕ} {e e' : Io.Shared}
  {p p' : Io.Pc} {a : Io.Label} {interest : ℕ → Interest} {k : ℕ}

@[simp] theorem patch_word : (patch mine caller turn e).word = e.word := rfl

@[simp] theorem patch_capture (ready : Io.Ready) :
    (patch mine caller turn e).capture ready = e.capture ready := rfl

@[simp] theorem patch_recheckReady (i : Interest) :
    (patch mine caller turn e).recheckReady i = e.recheckReady i := rfl

theorem patch_dropNode (hk : mine k = true) :
    Io.dropNode (patch mine caller turn e) k = Io.dropNode e k := by
  simp [Io.dropNode, patch, hk]

@[simp] theorem patch_log : (patch mine caller turn e).log = e.log := rfl

theorem ite_update {α : Type*} (f : ℕ → α) (z v : α) (hk : mine k = true) :
    (fun x ↦ if mine x then Function.update f k v x else z) =
      Function.update (fun x ↦ if mine x then f x else z) k v := by
  funext x
  by_cases hx : x = k
  · simp [hx, hk]
  · simp [hx]

/-- The driver's steps. The nodes of the list belong to the view. -/
theorem driverStep_patch (hlist : ∀ k ∈ e.list, mine k = true)
    (htick : e.tick = BitVec.ofNat 8 turn) (hturn : e.turn = turn)
    (h : Io.driverStep interest e p .step = some (e', p')) :
    Io.driverStep interest (patch mine caller turn e) p .step =
      some (patch mine caller turn e', p') := by
  cases p with
  | setLoad =>
    cases h
    rfl
  | setExchange ready current =>
    simp only [Io.driverStep] at h
    rw [htick] at h
    split at h
    · rename_i hpass
      split at h <;> rename_i hword <;> cases h
      · simp [Io.driverStep, patch, hpass, hword, hturn]
      · simp [Io.driverStep, patch, hpass, hword]
    · cases h
  | wakeLock =>
    simp only [Io.driverStep] at h
    split at h <;> rename_i hlock <;> cases h
    simp [Io.driverStep, patch, hlock]
  | takeSlots =>
    cases h
    rfl
  | scan event ready =>
    simp only [Io.driverStep] at h
    split at h
    · rename_i hfull
      cases h
      simp [Io.driverStep, patch, hfull]
    · rename_i hroom
      split at h
      · rename_i hnil
        cases h
        simp [Io.driverStep, patch, hroom, hnil]
      · rename_i k rest hcons
        have hk : mine k = true := hlist k (by rw [hcons]; exact List.mem_cons_self)
        split at h
        · rename_i hsat
          split at h <;> rename_i hnode <;> cases h
          simp [Io.driverStep, patch, hroom, hcons, hsat, hk, hnode, ite_update _ _ _ hk]
        · rename_i hsat
          cases h
          simp [Io.driverStep, patch, hroom, hcons, hsat]
  | drain =>
    simp only [Io.driverStep] at h
    split at h
    · rename_i hwakers
      cases h
      simp [Io.driverStep, patch, hwakers, Io.Shared.wakeOne]
    · rename_i hwakers
      split at h <;> rename_i hlock <;> cases h
      simp [Io.driverStep, patch, hwakers, hlock]
  | finish =>
    simp only [Io.driverStep] at h
    split at h <;> rename_i hwakers <;> cases h
    · simp [Io.driverStep, patch, hwakers, Io.Shared.wakeOne]
    · simp [Io.driverStep, patch, hwakers]
  | _ => cases h

/-- The steps of a future of the view. -/
theorem futureStep_patch (hk : mine k = true)
    (h : Io.futureStep interest k e p a = some (e', p')) :
    Io.futureStep interest k (patch mine caller turn e) p a =
      some (patch mine caller turn e', p') := by
  unfold Io.futureStep at h
  split at h
  · cases h; rfl
  · cases h; rfl
  · cases h; rfl
  · cases h; simp [Io.futureStep, patch_dropNode hk]
  · cases h; simp [Io.futureStep, patch_dropNode hk]
  · cases h; simp [Io.futureStep, patch_dropNode hk]
  · dsimp only at h
    split at h <;> rename_i hready <;> cases h
    · simp [Io.futureStep, patch, hready, Io.Shared.returnReady, Io.Shared.capture, hk,
        ite_update _ _ _ hk]
    · simp [Io.futureStep, patch, hready]
  · split at h <;> rename_i hlock <;> cases h
    simp [Io.futureStep, patch, hlock]
  · dsimp only at h
    split at h <;> rename_i hready <;> cases h
    · simp [Io.futureStep, hready]
    · simp [Io.futureStep, hready]
  · split at h <;> rename_i hnode <;> cases h
    simp [Io.futureStep, patch, hk, hnode, ite_update _ _ _ hk]
  · cases h; rfl
  · split at h <;> rename_i hlock <;> cases h
    simp [Io.futureStep, patch, hlock]
  · split at h <;> rename_i hnode <;> cases h
    · simp [Io.futureStep, patch, hk, hnode, ite_update _ _ _ hk]
    · simp [Io.futureStep, patch, hk, hnode, ite_update _ _ _ hk]
    · simp [Io.futureStep, patch, hk, hnode]
  · cases h
    simp [Io.futureStep, patch, hk, ite_update _ _ _ hk]
  · cases h
    simp [Io.futureStep, patch, Io.Shared.returnReady, hk, ite_update _ _ _ hk]
  · cases h; rfl
  · cases h
    simp [Io.futureStep, patch, Io.Shared.returnReady, Io.Shared.capture, hk,
      ite_update _ _ _ hk]
  · cases h

/-- The steps of a thread. -/
theorem threadStep_patch (h : Io.threadStep k e p a = some (e', p')) :
    ∃ caller', Io.threadStep k (patch mine caller turn e) p a =
      some (patch mine caller' turn e', p') := by
  unfold Io.threadStep at h
  split at h
  · cases h
    exact ⟨caller, rfl⟩
  · dsimp only at h
    split at h <;> rename_i hready <;> cases h
    · exact ⟨caller, by simp [Io.threadStep, patch, hready]⟩
    · exact ⟨caller, by simp [Io.threadStep, patch, hready, Io.Shared.capture]⟩
  · split at h <;> rename_i hlock <;> cases h
    exact ⟨caller, by simp [Io.threadStep, patch, hlock]⟩
  · cases h
    exact ⟨_, rfl⟩
  · dsimp only at h
    rename_i d
    split at h
    · rename_i hshut
      cases h
      exact ⟨caller, by simp [Io.threadStep, patch, hshut, Io.Shared.capture]⟩
    · rename_i hshut
      split at h <;> rename_i hready <;> cases h
      · refine ⟨Function.update caller d ((caller d).map fun c ↦
          { c with stored := { c.stored with recheck := e.log.length }, pending := true }), ?_⟩
        simp [Io.threadStep, patch, hshut, hready]
      · exact ⟨caller, by simp [Io.threadStep, patch, hshut, hready, Io.Shared.capture]⟩
  · cases h
    exact ⟨caller, rfl⟩
  · cases h
    exact ⟨caller, rfl⟩
  · cases h
    exact ⟨caller, rfl⟩
  · split at h <;> rename_i hheld <;> cases h
    exact ⟨caller, by simp [Io.threadStep, patch, hheld]⟩
  · cases h
    exact ⟨caller, rfl⟩
  · dsimp only at h
    split at h
    · cases h
    · rename_i hpass
      cases h
      exact ⟨caller, by simp [Io.threadStep, patch, hpass]⟩
    · rename_i hpass
      split at h <;> rename_i hword <;> cases h
      · exact ⟨caller, by simp [Io.threadStep, patch, hpass, hword]⟩
      · exact ⟨caller, by simp [Io.threadStep, patch, hpass, hword]⟩
  · cases h

end

end ArcDischarge.Slab
