import ArcDischarge.Queues.Entries

/-!
# Entries are conserved

Where the entries are that the queues have accepted: each is in one global or local queue, once, or
in the record of what one worker has handed to `run`, once. A refill moves entries from a global
queue to a local one, and a worker moves the front of its local queue to `run`.

An entry that was not accepted is represented by one that was: the one that its task was linked with
in the global queue.
-/

namespace ArcDischarge.Queues

inductive Place where
  | globalQueue (runtime : ℕ)
  | localQueue (thread : Thread)
  | handed (thread : Thread)
  deriving DecidableEq, Repr

/-- What is in the local queue of a thread, if it has one. -/
def Local.items (ℓ : Local) : List Entry :=
  match ℓ.handle with
  | some h => h.localQueue.items
  | none => []

def contents (m : Shared) (pc : Thread → Local) : Place → List Entry
  | .globalQueue r => m.globalQueue r
  | .localQueue θ => (pc θ).items
  | .handed θ => (pc θ).handed

/-- The accepted entries are each in one place. -/
def Conserved (m : Shared) (pc : Thread → Local) : Prop :=
  OnePlace (· ∈ m.accepted) (contents m pc)

variable {θ : Thread} {m m' : Shared} {pc : Thread → Local} {ℓ ℓ' : Local}
  {h h' : ExecutorHandle} {e : Entry} {r : ℕ}

/-! ## The places that a step touches -/

/-- The places after a step of one thread: the global queues, and its own. -/
theorem contents_eq {place : Place → List Entry}
    (hglobal : ∀ r, m'.globalQueue r = place (.globalQueue r))
    (hitems : ℓ.items = place (.localQueue θ)) (hhanded : ℓ.handed = place (.handed θ))
    (hother : ∀ θ', θ' ≠ θ → place (.localQueue θ') = (pc θ').items ∧
      place (.handed θ') = (pc θ').handed) :
    contents m' (Function.update pc θ ℓ) = place := by
  funext P
  cases P with
  | globalQueue r => exact hglobal r
  | localQueue θ' =>
    by_cases hθ : θ' = θ
    · simp [contents, hθ, hitems]
    · simp [contents, hθ, hother θ' hθ]
  | handed θ' =>
    by_cases hθ : θ' = θ
    · simp [contents, hθ, hhanded]
    · simp [contents, hθ, hother θ' hθ]

/-- A step that changes no queue. -/
theorem Conserved.of_eq (hc : Conserved m pc) (haccepted : m'.accepted = m.accepted)
    (hglobal : m'.globalQueue = m.globalQueue) (hitems : ℓ.items = (pc θ).items)
    (hhanded : ℓ.handed = (pc θ).handed) : Conserved m' (Function.update pc θ ℓ) := by
  have hcontents : contents m' (Function.update pc θ ℓ) = contents m pc :=
    contents_eq (fun r ↦ by rw [hglobal]; rfl) hitems hhanded fun θ' _ ↦ ⟨rfl, rfl⟩
  rw [Conserved, hcontents, haccepted]
  exact hc

/-- The front of the local queue is handed to `run`. -/
theorem Conserved.run (hc : Conserved m pc) (hh : (pc θ).handle = some h)
    (hpop : h.pop = some (e, h')) (hlocal : ℓ.handle = some h')
    (hhanded : ℓ.handed = (pc θ).handed ++ [e]) : Conserved m (Function.update pc θ ℓ) := by
  obtain ⟨rest, hfront, rfl⟩ := of_pop hpop
  have hplace : contents m pc (.localQueue θ) = e :: rest := by
    simp [contents, Local.items, hh, hfront]
  have htransfer := OnePlace.transfer (Q := .handed θ) hc hplace (by simp)
  have hcontents : contents m (Function.update pc θ ℓ) = Function.update
      (Function.update (contents m pc) (.localQueue θ) rest) (.handed θ)
      (contents m pc (.handed θ) ++ [e]) := by
    refine contents_eq (by simp [contents]) ?_ ?_ fun θ' hθ ↦ ?_
    · simp [Local.items, hlocal]
    · simp [contents, hhanded]
    · simp [contents, hθ]
  rw [Conserved, hcontents]
  exact htransfer

/-- One round of a refill. -/
theorem Conserved.pull (hc : Conserved m (Function.update pc θ { ℓ with handle := some h }))
    (hpop : m.popFront h.shared = some (e, m')) :
    Conserved m' (Function.update pc θ { ℓ with handle := some (h.push e) }) := by
  obtain ⟨rest, hqueue, rfl⟩ := of_popFront hpop
  obtain ⟨pc', hpc'⟩ : ∃ pc', pc' = Function.update pc θ { ℓ with handle := some h } := ⟨_, rfl⟩
  rw [← hpc'] at hc
  have hplace : contents m pc' (.globalQueue h.shared) = e :: rest := hqueue
  have htransfer := OnePlace.transfer (Q := .localQueue θ) hc hplace (by simp)
  rw [Conserved, contents_eq]
  · exact htransfer
  · intro r
    by_cases hr : r = h.shared
    · simp [hr]
    · simp [hr, contents]
  · simp [contents, Local.items, hpc']
  · simp [contents, hpc']
  · intro θ' hθ
    simp [contents, hpc', hθ]

/-- An entry is accepted by the local queue. -/
theorem Conserved.pushLocal (hc : Conserved m pc) (hh : (pc θ).handle = some h)
    (he : e ∉ m.accepted) (haccepted : m'.accepted = m.accepted ++ [e])
    (hglobal : m'.globalQueue = m.globalQueue) (hlocal : ℓ.handle = some (h.push e))
    (hhanded : ℓ.handed = (pc θ).handed) : Conserved m' (Function.update pc θ ℓ) := by
  have hinsert := OnePlace.insert (P := .localQueue θ) hc he
    (fun y ↦ (by rw [haccepted, List.mem_append, List.mem_singleton] :
      y ∈ m'.accepted ↔ y ∈ m.accepted ∨ y = e))
  rw [Conserved, contents_eq]
  · exact hinsert
  · intro r
    simp [contents, hglobal]
  · simp [contents, Local.items, hh, hlocal]
  · simp [contents, hhanded]
  · intro θ' hθ
    simp [contents, hθ]

/-- An entry is accepted by a global queue. -/
theorem Conserved.pushGlobal (hc : Conserved m pc) (he : e ∉ m.accepted)
    (haccepted : m'.accepted = m.accepted ++ [e])
    (hglobal : m'.globalQueue = Function.update m.globalQueue r (m.globalQueue r ++ [e]))
    (hitems : ℓ.items = (pc θ).items) (hhanded : ℓ.handed = (pc θ).handed) :
    Conserved m' (Function.update pc θ ℓ) := by
  have hinsert := OnePlace.insert (P := .globalQueue r) hc he
    (fun y ↦ (by rw [haccepted, List.mem_append, List.mem_singleton] :
      y ∈ m'.accepted ↔ y ∈ m.accepted ∨ y = e))
  rw [Conserved, contents_eq]
  · exact hinsert
  · intro r'
    rw [hglobal]
    by_cases hr : r' = r
    · simp [hr, contents]
    · simp [hr, contents]
  · simp [contents, hitems]
  · simp [contents, hhanded]
  · intro θ' hθ
    simp [contents]

/-! ## Whole runs -/

theorem Conserved.getMany (hc : Conserved m pc) (hh : (pc θ).handle = some h) (n : ℕ) :
    Conserved (getMany n m h).1
      (Function.update pc θ { pc θ with handle := some (getMany n m h).2 }) := by
  refine getMany_rule (P := fun _ m' h' ↦
    Conserved m' (Function.update pc θ { pc θ with handle := some h' })) ?_
    (fun _ _ _ hP _ ↦ hP) ?_
  · exact fun k m' h' e m'' hP hpop ↦ hP.pull hpop
  · have hself : { pc θ with handle := some h } = pc θ := by rw [← hh]
    rw [hself, Function.update_eq_self]
    exact hc

/-- The local queue of a `block_on` is dropped with nothing in it. -/
theorem Ok.items_eq_nil {k : ℕ} (hok : Ok m θ ℓ) (hθ : θ = .other k) : ℓ.items = [] := by
  have hhandle := hok.handle
  rw [hθ] at hhandle
  rw [Local.items]
  cases hh : ℓ.handle with
  | none => rfl
  | some h =>
    rw [hh] at hhandle
    have hempty : h.localQueue = .withCapacity 0 := hhandle
    simp [hempty, VecDeque.withCapacity]

theorem Conserved.move (hc : Conserved m pc) (hok : Ok m θ (pc θ))
    (hnumbered : Numbered m θ (pc θ)) (hmove : Move θ m (pc θ) m' ℓ') :
    Conserved m' (Function.update pc θ ℓ') := by
  cases hmove with
  | popLocal hpc hh hpop => exact hc.run hh hpop rfl rfl
  | @getSome h h' e hpc hh hpop =>
    have hrun := (hc.getMany hh 4).run (θ := θ) (ℓ := (pc θ).run h' e) (by simp) hpop rfl
      (by simp [Local.run])
    rwa [Function.update_idem] at hrun
  | @getNone h hpc hh hpop =>
    have hidle := (hc.getMany hh 4).of_eq (θ := θ)
      (ℓ := { pc θ with handle := some (Queues.getMany 4 m h).2
                        pc := .idle (m.globalQueue h.shared) }) rfl rfl (by simp [Local.items])
      (by simp)
    rwa [Function.update_idem] at hidle
  | scheduleLocal hpc halloc hh =>
    obtain ⟨haccepted, -, hglobal⟩ := halloc.history
    refine hc.pushLocal hh (hnumbered.not_mem _) ?_ hglobal rfl rfl
    rw [← haccepted]
  | scheduleGlobal hpc halloc =>
    obtain ⟨haccepted, -, hglobal⟩ := halloc.history
    exact hc.of_eq haccepted hglobal rfl rfl
  | push hpc =>
    have hpending := hnumbered.pending _ (by rw [hpc]; rfl)
    exact hc.pushGlobal hpending.2.2.1 rfl rfl rfl rfl
  | blockOn hpc hh =>
    refine hc.of_eq rfl rfl ?_ rfl
    rw [Local.items, Local.items, hh]
    rfl
  | reset hθ =>
    -- the queue of a `block_on` handle has capacity 0, so nothing is dropped with it
    refine hc.of_eq rfl rfl ?_ rfl
    rw [hok.items_eq_nil hθ]
    rfl
  | _ => exact hc.of_eq rfl rfl rfl rfl

/-- Each entry that was not accepted is represented by one of its task that was, and that was in the
global queue then. -/
def Represented (m : Shared) : Prop :=
  ∀ x ∈ m.merged, ∃ e ∈ x.2, e.task = x.1.task ∧ e ∈ m.accepted

theorem Represented.mono (h : Represented m) (hmerged : m'.merged = m.merged)
    (haccepted : ∀ e ∈ m.accepted, e ∈ m'.accepted) : Represented m' := by
  intro x hx
  rw [hmerged] at hx
  obtain ⟨e, he, htask, hmem⟩ := h x hx
  exact ⟨e, he, htask, haccepted e hmem⟩

theorem Represented.move (h : Represented m) (hc : Conserved m pc) (hm : Sound m)
    (hmove : Move θ m ℓ m' ℓ') : Represented m' := by
  cases hmove with
  | getSome | getNone =>
    obtain ⟨haccepted, hmerged⟩ := getMany_history 4 m _
    exact h.mono hmerged fun e he ↦ haccepted.symm ▸ he
  | scheduleLocal hpc halloc =>
    obtain ⟨haccepted, hmerged, -⟩ := halloc.history
    exact h.mono hmerged fun e he ↦ List.mem_append_left _ (haccepted.symm ▸ he)
  | scheduleGlobal hpc halloc =>
    obtain ⟨haccepted, hmerged, -⟩ := halloc.history
    exact h.mono hmerged fun e he ↦ haccepted.symm ▸ he
  | push => exact h.mono rfl fun e he ↦ List.mem_append_left _ he
  | @merge r e _ hpc hr hlinked =>
    intro x hx
    rcases List.mem_append.mp hx with hx | hx
    · exact h x hx
    · rw [List.mem_singleton] at hx
      subst hx
      -- the link is set, so the task is in the global queue of its runtime
      obtain ⟨r', hmem⟩ := (hm.linked _).mp hlinked
      obtain ⟨e', he', htask⟩ := List.mem_map.mp hmem
      have hhome := hm.home r' e' he'
      rw [htask, hr, Option.some.injEq] at hhome
      subst hhome
      exact ⟨e', he', htask, (hc.known_iff e').mpr ⟨.globalQueue r, he'⟩⟩
  | _ => exact h

theorem nodup_accepted (h : m.accepted.Nodup) (hnumbered : Numbered m θ ℓ)
    (heffect : Effect θ m ℓ m' ℓ') : m'.accepted.Nodup := by
  have happend {e : Entry} (he : e ∉ m.accepted) : (m.accepted ++ [e]).Nodup := by
    refine List.nodup_append.mpr ⟨h, List.nodup_singleton e, fun x hx y hy ↦ ?_⟩
    rw [List.mem_singleton.mp hy]
    rintro rfl
    exact he hx
  cases heffect with
  | none haccepted | begins haccepted | merges haccepted => exact haccepted.symm ▸ h
  | accepts haccepted => exact haccepted.symm ▸ happend (hnumbered.not_mem _)
  | pushes haccepted _ _ hbefore =>
    exact haccepted.symm ▸ happend (hnumbered.pending _ hbefore).2.2.1

structure History (c : State) : Prop where
  conserved : Conserved c.shared c.pc
  nodup : c.shared.accepted.Nodup
  represented : Represented c.shared

theorem history_of_reachable {capacity : ℕ} {c : State} (hc : (machine capacity).Reachable c) :
    History c := by
  refine System.invariant hc ?_ ?_
  · rintro c rfl
    refine ⟨.empty (by simp [State.new]) fun P ↦ ?_, List.nodup_nil,
      by simp [Represented, State.new]⟩
    cases P with
    | globalQueue r => rfl
    | localQueue θ | handed θ => cases θ <;> rfl
  · intro c θ a m ℓ hr h _ hstep
    have hholds := holds_of_reachable hr
    have hnumbered := numbered_of_reachable hr θ
    have hmove := move_of_step hstep
    exact ⟨h.conserved.move (hholds.2 θ) hnumbered hmove,
      nodup_accepted h.nodup hnumbered (hmove.effect hholds.1),
      h.represented.move h.conserved hholds.1 hmove⟩

end ArcDischarge.Queues
