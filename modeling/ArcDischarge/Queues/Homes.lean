import ArcDischarge.Queues.Moves
import Mathlib.Data.List.Nodup

/-!
# Tasks stay in the queues of their runtime

Each way to schedule a task looks at the handle of the thread it happens to be on: one of a worker
of the task's runtime, of a worker of another, of a `block_on`, or none. The entry ends up in the
global queue of the task's runtime or in the local queue of one of its workers: a local queue takes
tasks of its own runtime only, and that of a `block_on` has no room for any.

The link of a task is set while it is in that global queue and at no other time, so `push_back`
never finds it set: it is called after `is_linked` under the lock, and nobody else has access to the
link.
-/

namespace ArcDischarge.Queues

/-- The global queues hold tasks of their own runtime, each at most once, and the links are those of
the tasks they hold. -/
structure Sound (m : Shared) : Prop where
  home : ∀ r, ∀ e ∈ m.globalQueue r, m.handle e.task = some r
  once : ∀ r, ((m.globalQueue r).map Entry.task).Nodup
  linked : ∀ t, m.linked t = true ↔ ∃ r, t ∈ (m.globalQueue r).map Entry.task
  unpoisoned : ∀ r, m.poisoned r = false

/-- The handle of a worker is of its runtime, as are the tasks in the local queue. That of a
`block_on` has an empty one, without room. -/
def HandleOk (m : Shared) : Thread → Option ExecutorHandle → Prop
  | .worker r _, some h => h.shared = r ∧ ∀ e ∈ h.localQueue.items, m.handle e.task = some r
  | .worker _ _, none => False
  | .other _, some h => h.localQueue = .withCapacity 0
  | .other _, none => True

/-- In the loop of a worker, outside user code. -/
def Pc.inLoop : Pc → Prop
  | .top | .getMany | .idle _ | .parked => True
  | .code _ | .push _ _ | .panicked => False

structure Ok (m : Shared) (θ : Thread) (ℓ : Local) : Prop where
  handle : HandleOk m θ ℓ.handle
  inLoop : ℓ.pc.inLoop → ∃ r i, θ = .worker r i
  panicked : ℓ.pc ≠ .panicked
  handed : ∀ e ∈ ℓ.handed, ∃ r i, θ = .worker r i ∧ m.handle e.task = some r

variable {θ θ' : Thread} {m m' m₁ : Shared} {ℓ ℓ' ℓ₁ : Local} {h h' : ExecutorHandle} {e : Entry}
  {r t n : ℕ}

/-- In its loop a worker has its handle, with tasks of its runtime. -/
theorem Ok.items (hok : Ok m θ ℓ) (hpc : ℓ.pc.inLoop) (hh : ℓ.handle = some h) :
    ∃ i, θ = .worker h.shared i ∧
      ∀ e ∈ h.localQueue.items, m.handle e.task = some h.shared := by
  obtain ⟨r, i, rfl⟩ := hok.inLoop hpc
  have hhandle := hok.handle
  rw [hh] at hhandle
  obtain ⟨rfl, hitems⟩ := hhandle
  exact ⟨i, rfl, hitems⟩

/-! ## The shared part -/

theorem Allocates.handle (hm : Allocates m r t m') : m'.handle t = some r := by
  cases hm with
  | old h => exact h
  | new h => exact Function.update_self ..

/-- A task keeps its runtime. -/
theorem Allocates.mono (hm : Allocates m r t m') {t' r' : ℕ} (h : m.handle t' = some r') :
    m'.handle t' = some r' := by
  cases hm with
  | old => exact h
  | new hnew =>
    refine (Function.update_of_ne ?_ _ _).trans h
    rintro rfl
    rw [hnew] at h
    cases h

theorem Sound.allocates (h : Sound m) (hm : Allocates m r t m') : Sound m' := by
  have hmono {t' r' : ℕ} : m.handle t' = some r' → m'.handle t' = some r' := hm.mono
  cases hm with
  | old => exact h
  | new =>
    exact ⟨fun r e he ↦ hmono (h.home r e he), h.once, h.linked, h.unpoisoned⟩

/-- The task at the front of a global queue is taken out. -/
theorem Sound.popFront (h : Sound m) (hpop : m.popFront r = some (e, m')) :
    Sound m' ∧ m'.handle = m.handle ∧ m.handle e.task = some r := by
  obtain ⟨rest, hqueue, rfl⟩ := of_popFront hpop
  have hhome : m.handle e.task = some r := h.home r e (hqueue ▸ List.mem_cons_self)
  have hnodup := h.once r
  rw [hqueue, List.map_cons, List.nodup_cons] at hnodup
  -- what is left: other tasks in this queue, and the other queues as they are
  have hmem (r' t : ℕ) : t ∈ (Function.update m.globalQueue r rest r').map Entry.task ↔
      t ≠ e.task ∧ t ∈ (m.globalQueue r').map Entry.task := by
    by_cases hr : r' = r
    · subst hr
      rw [Function.update_self, hqueue, List.map_cons, List.mem_cons]
      constructor
      · exact fun ht ↦ ⟨fun heq ↦ hnodup.1 (heq ▸ ht), .inr ht⟩
      · exact fun ht ↦ ht.2.resolve_left ht.1
    · rw [Function.update_of_ne hr]
      refine ⟨fun ht ↦ ⟨?_, ht⟩, fun ht ↦ ht.2⟩
      rintro rfl
      obtain ⟨e', he', htask⟩ := List.mem_map.mp ht
      have hhome' := h.home r' e' he'
      rw [htask, hhome, Option.some.injEq] at hhome'
      exact hr hhome'.symm
  refine ⟨⟨fun r' e' he' ↦ ?_, fun r' ↦ ?_, fun t ↦ ?_, h.unpoisoned⟩, rfl, hhome⟩
  · refine h.home r' e' ?_
    by_cases hr : r' = r
    · subst hr
      rw [hqueue]
      exact List.mem_cons_of_mem _ (by simpa using he')
    · simpa [hr] using he'
  · by_cases hr : r' = r
    · subst hr
      simpa using hnodup.2
    · simpa [hr] using h.once r'
  · simp only [hmem, exists_and_left]
    by_cases ht : t = e.task
    · simp [ht]
    · simp [ht, h.linked t]

/-- A task whose link is free is put into its global queue. -/
theorem Sound.pushBack (h : Sound m) (hr : m.handle e.task = some r)
    (hlinked : m.linked e.task = false) :
    Sound { m with linked := Function.update m.linked e.task true
                   globalQueue := Function.update m.globalQueue r (m.globalQueue r ++ [e])
                   accepted := m.accepted ++ [e] } := by
  -- the link says that the task is in no queue, whatever its runtime
  have hfree (r' : ℕ) : e.task ∉ (m.globalQueue r').map Entry.task := by
    intro hmem
    rw [(h.linked _).mpr ⟨r', hmem⟩] at hlinked
    cases hlinked
  have hmem (r' t : ℕ) :
      t ∈ (Function.update m.globalQueue r (m.globalQueue r ++ [e]) r').map Entry.task ↔
        t ∈ (m.globalQueue r').map Entry.task ∨ (t = e.task ∧ r' = r) := by
    by_cases hr' : r' = r
    · subst hr'
      simp
    · simp [hr']
  refine ⟨fun r' e' he' ↦ ?_, fun r' ↦ ?_, fun t ↦ ?_, h.unpoisoned⟩
  · dsimp only at he' ⊢
    by_cases hr' : r' = r
    · subst hr'
      rw [Function.update_self, List.mem_append, List.mem_singleton] at he'
      rcases he' with he' | rfl
      · exact h.home r' e' he'
      · exact hr
    · rw [Function.update_of_ne hr'] at he'
      exact h.home r' e' he'
  · dsimp only
    by_cases hr' : r' = r
    · subst hr'
      rw [Function.update_self, List.map_append]
      refine List.nodup_append.mpr ⟨h.once r', List.nodup_singleton _, fun t ht t' ht' ↦ ?_⟩
      rw [List.map_singleton, List.mem_singleton] at ht'
      rw [ht']
      exact fun heq ↦ hfree r' (heq ▸ ht)
    · rw [Function.update_of_ne hr']
      exact h.once r'
  · simp only [hmem, exists_or, exists_and_left, exists_eq, and_true]
    by_cases ht : t = e.task
    · simp [ht]
    · simp [ht, h.linked t]

/-- A refill takes tasks of the runtime out of the global queue, and puts them into the local one.
-/
theorem Sound.getMany (hm : Sound m) (hitems : ∀ e ∈ h.localQueue.items,
      m.handle e.task = some h.shared) :
    Sound (getMany n m h).1 ∧ (getMany n m h).1.handle = m.handle ∧
      (getMany n m h).2.shared = h.shared ∧
      ∀ e ∈ (getMany n m h).2.localQueue.items, m.handle e.task = some h.shared := by
  refine getMany_rule (P := fun _ m' h' ↦ Sound m' ∧ m'.handle = m.handle ∧ h'.shared = h.shared ∧
    ∀ e ∈ h'.localQueue.items, m.handle e.task = some h.shared) ?_ (fun _ _ _ hP _ ↦ hP)
    ⟨hm, rfl, rfl, hitems⟩
  rintro k m' h' e m'' ⟨hsound, hhandle, hshared, hitems'⟩ hpop
  obtain ⟨hsound', hhandle', hhome⟩ := hsound.popFront hpop
  refine ⟨hsound', hhandle'.trans hhandle, hshared, fun e' he' ↦ ?_⟩
  rw [push_items, List.mem_append, List.mem_singleton] at he'
  rcases he' with he' | rfl
  · exact hitems' e' he'
  · rw [← hhandle, ← hshared]
    exact hhome

theorem Sound.move (hm : Sound m) (hok : Ok m θ ℓ) (hmove : Move θ m ℓ m' ℓ') : Sound m' := by
  cases hmove with
  | getSome hpc hh | getNone hpc hh =>
    obtain ⟨i, -, hitems⟩ := hok.items (hpc ▸ trivial) hh
    exact (hm.getMany hitems).1
  | scheduleLocal hpc halloc =>
    have := hm.allocates halloc
    exact ⟨this.home, this.once, this.linked, this.unpoisoned⟩
  | scheduleGlobal hpc halloc => exact hm.allocates halloc
  | merge => exact ⟨hm.home, hm.once, hm.linked, hm.unpoisoned⟩
  | push hpc hr hlinked => exact hm.pushBack hr hlinked
  | _ => exact hm

/-! ## The threads -/

/-- Tasks keep their runtime. -/
theorem Move.handle_mono (hm : Sound m) (hok : Ok m θ ℓ) (hmove : Move θ m ℓ m' ℓ') {t r : ℕ}
    (h : m.handle t = some r) : m'.handle t = some r := by
  cases hmove with
  | getSome hpc hh | getNone hpc hh =>
    obtain ⟨i, -, hitems⟩ := hok.items (hpc ▸ trivial) hh
    rw [(hm.getMany hitems).2.1]
    exact h
  | scheduleLocal hpc halloc | scheduleGlobal hpc halloc => exact halloc.mono h
  | _ => exact h

/-- A worker takes the task at the front of its local queue to `run`. -/
theorem Ok.run (hok : Ok m θ ℓ) {i : ℕ} {counter : BitVec 64} (hθ : θ = .worker h.shared i)
    (hitems : ∀ e ∈ h.localQueue.items, m.handle e.task = some h.shared)
    (hpop : h.pop = some (e, h')) : Ok m θ ({ ℓ with counter }.run h' e) := by
  obtain ⟨rest, hfront, rfl⟩ := of_pop hpop
  have hhome := hitems e (hfront ▸ List.mem_cons_self)
  subst hθ
  refine ⟨⟨rfl, fun e' he' ↦ hitems e' (hfront ▸ List.mem_cons_of_mem _ he')⟩, fun h ↦ h.elim,
    by simp [Local.run], fun e' he' ↦ ?_⟩
  rcases List.mem_append.mp he' with he' | he'
  · exact hok.handed e' he'
  · rw [List.mem_singleton] at he'
    subst he'
    exact ⟨_, i, rfl, hhome⟩

/-- What a thread relies on stays true while tasks are allocated. -/
theorem Ok.mono (hok : Ok m θ ℓ) (hmono : ∀ t r, m.handle t = some r → m'.handle t = some r) :
    Ok m' θ ℓ := by
  refine ⟨?_, hok.inLoop, hok.panicked, fun e he ↦ ?_⟩
  · have hhandle := hok.handle
    cases θ with
    | worker r i =>
      cases hh : ℓ.handle with
      | none =>
        rw [hh] at hhandle
        exact hhandle
      | some h =>
        rw [hh] at hhandle
        exact ⟨hhandle.1, fun e he ↦ hmono _ _ (hhandle.2 e he)⟩
    | other k =>
      cases hh : ℓ.handle with
      | none => trivial
      | some h =>
        rw [hh] at hhandle
        exact hhandle
  · obtain ⟨r, i, hθ, hhome⟩ := hok.handed e he
    exact ⟨r, i, hθ, hmono _ _ hhome⟩

theorem Ok.move (hm : Sound m) (hok : Ok m θ ℓ) (hmove : Move θ m ℓ m' ℓ') : Ok m' θ ℓ' := by
  cases hmove with
  | popLocal hpc hh hpop =>
    obtain ⟨i, hθ, hitems⟩ := hok.items (hpc ▸ trivial) hh
    exact hok.run hθ hitems hpop
  | skipLocal hpc =>
    exact ⟨hok.handle, fun _ ↦ hok.inLoop (hpc ▸ trivial), by simp, hok.handed⟩
  | getSome hpc hh hpop =>
    obtain ⟨i, hθ, hitems⟩ := hok.items (hpc ▸ trivial) hh
    obtain ⟨-, hhandle, hshared, hitems'⟩ := hm.getMany (n := 4) hitems
    rw [← hshared] at hθ hitems'
    rw [← hhandle] at hitems'
    exact (hok.mono fun t r h ↦ hhandle ▸ h).run hθ hitems' hpop
  | @getNone h hpc hh =>
    obtain ⟨i, rfl, hitems⟩ := hok.items (hpc ▸ trivial) hh
    obtain ⟨-, hhandle, hshared, hitems'⟩ := hm.getMany (n := 4) hitems
    have hok' : Ok (getMany 4 m h).1 (.worker h.shared i) ℓ := hok.mono fun t r h ↦ hhandle ▸ h
    exact ⟨⟨hshared, fun e he ↦ hhandle ▸ hitems' e he⟩, fun _ ↦ ⟨_, i, rfl⟩, by simp,
      hok'.handed⟩
  | poisoned hr =>
    rw [hm.unpoisoned] at hr
    cases hr
  | pollTimeout => exact ⟨hok.handle, fun h ↦ h.elim, by simp, hok.handed⟩
  | park hpc | unpark hpc =>
    exact ⟨hok.handle, fun _ ↦ hok.inLoop (hpc ▸ trivial), by simp, hok.handed⟩
  | ret hθ => exact ⟨hok.handle, fun _ ↦ ⟨_, _, hθ⟩, by simp, hok.handed⟩
  | unwinds => exact hok
  | blockOn hpc hh =>
    refine ⟨?_, hok.inLoop, hok.panicked, hok.handed⟩
    have hhandle := hok.handle
    rw [hh] at hhandle
    cases θ with
    | worker r i => exact hhandle.elim
    | other k => rfl
  | reset hθ =>
    subst hθ
    exact ⟨trivial, hok.inLoop, hok.panicked, hok.handed⟩
  | @scheduleLocal m' h t _ hpc halloc hh hroom =>
    have hok' : Ok m' θ ℓ := hok.mono fun t r h ↦ halloc.mono h
    refine ⟨?_, hok.inLoop, hok.panicked, hok'.handed⟩
    have hhandle := hok'.handle
    rw [hh] at hhandle
    cases θ with
    | worker r i =>
      refine ⟨hhandle.1, fun e he ↦ ?_⟩
      rw [push_items, List.mem_append, List.mem_singleton] at he
      rcases he with he | rfl
      · exact hhandle.2 e he
      · exact halloc.handle.trans (congrArg some hhandle.1)
    | other k =>
      -- the local queue of a `block_on` has no room
      have hempty : h.localQueue = .withCapacity 0 := hhandle
      rw [hempty] at hroom
      exact absurd hroom (Nat.lt_irrefl 0)
  | scheduleGlobal hpc halloc =>
    have hok' := hok.mono fun t r h ↦ halloc.mono h
    exact ⟨hok'.handle, fun h ↦ h.elim, by simp [Local.scheduleGlobal], hok'.handed⟩
  | merge | push => exact ⟨hok.handle, fun h ↦ h.elim, by simp, hok.handed⟩

theorem holds_of_reachable {capacity : ℕ} {c : State} (hc : (machine capacity).Reachable c) :
    System.Holds Sound (fun θ m ℓ ↦ Ok m θ ℓ) c := by
  refine System.holds_of_reachableUnder hc ?_ ?_ ?_
  · rintro c rfl
    refine ⟨⟨by simp [State.new], by simp [State.new], by simp [State.new], fun _ ↦ rfl⟩, ?_⟩
    intro θ
    cases θ with
    | worker r i => exact ⟨⟨rfl, fun e he ↦ by cases he⟩, fun _ ↦ ⟨r, i, rfl⟩, by simp [State.new],
        by simp [State.new]⟩
    | other k => exact ⟨trivial, fun h ↦ h.elim, by simp [State.new], by simp [State.new]⟩
  · intro c θ a m ℓ _ hc _ hstep
    have hmove := move_of_step hstep
    exact ⟨hc.1.move (hc.2 θ) hmove, (hc.2 θ).move hc.1 hmove⟩
  · intro c θ a m ℓ _ hc _ hstep θ' _
    exact (hc.2 θ').mono fun t r h ↦ (move_of_step hstep).handle_mono hc.1 (hc.2 θ) h

/-! ## Whole runs -/

structure Placed (c : State) : Prop where
  /-- A global queue has tasks of its own runtime only. -/
  globals : ∀ r, ∀ e ∈ c.shared.globalQueue r, c.shared.handle e.task = some r
  /-- A task in a local queue is one of the handle's runtime, and the handle is that of a worker. -/
  locals : ∀ θ h, (c.pc θ).handle = some h → ∀ e ∈ h.localQueue.items,
    c.shared.handle e.task = some h.shared ∧ ∃ i, θ = .worker h.shared i
  /-- A task is run by workers of its runtime only. -/
  runs : ∀ θ, ∀ e ∈ (c.pc θ).handed, ∃ r i, θ = .worker r i ∧ c.shared.handle e.task = some r
  /-- No task is in a global queue twice. -/
  once : ∀ r, ((c.shared.globalQueue r).map Entry.task).Nodup
  /-- A task's link is set exactly while the task is in the global queue of its runtime. -/
  linked : ∀ t r, c.shared.handle t = some r →
    (c.shared.linked t = true ↔ t ∈ (c.shared.globalQueue r).map Entry.task)
  /-- No `push_back` has found a link set. -/
  pushes : (∀ r, c.shared.poisoned r = false) ∧ ∀ θ, (c.pc θ).pc ≠ .panicked

/-- **Tasks stay in the queues of their runtime**, whoever schedules them and in whatever order, and
their links are used soundly. -/
theorem placed_of_reachable {capacity : ℕ} {c : State} (hc : (machine capacity).Reachable c) :
    Placed c := by
  obtain ⟨hm, hok⟩ := holds_of_reachable hc
  refine ⟨hm.home, fun θ h hh e he ↦ ?_, fun θ ↦ (hok θ).handed, hm.once, fun t r htask ↦ ?_,
    hm.unpoisoned, fun θ ↦ (hok θ).panicked⟩
  · have hhandle := (hok θ).handle
    rw [hh] at hhandle
    cases θ with
    | worker r i =>
      obtain ⟨rfl, hitems⟩ := hhandle
      exact ⟨hitems e he, i, rfl⟩
    | other k =>
      have hempty : h.localQueue = .withCapacity 0 := hhandle
      rw [hempty] at he
      cases he
  · rw [hm.linked]
    constructor
    · rintro ⟨r', hmem⟩
      obtain ⟨e, he, rfl⟩ := List.mem_map.mp hmem
      have hhome := hm.home r' e he
      rw [htask, Option.some.injEq] at hhome
      exact hhome ▸ hmem
    · exact fun hmem ↦ ⟨r, hmem⟩

/-- A thread in a `block_on` of runtime 0 spawns task 5. A worker of the runtime runs it; meanwhile
the task is woken there and on a worker of runtime 1, and it spawns task 6 on runtime 1. -/
def twoRuntimes : List (Thread × Label) :=
  [(.other 0, .blockOn 0), (.other 0, .spawn 5), (.other 0, .step), (.worker 0 0, .step),
    (.worker 0 0, .step), (.worker 0 0, .wake 5), (.worker 0 0, .spawnOn 1 6),
    (.worker 0 0, .step), (.worker 1 0, .step), (.worker 1 0, .step), (.worker 1 0, .wake 5),
    (.worker 1 0, .step)]

def afterTwoRuntimes : State :=
  ((machine 32).exec (.new 32) twoRuntimes).get (by decide +kernel)

theorem placed_afterTwoRuntimes : (machine 32).Reachable afterTwoRuntimes ∧
    (afterTwoRuntimes.shared.globalQueue 0).map Entry.task = [5] ∧
    (afterTwoRuntimes.pc (.worker 0 0)).handed.map Entry.task = [5] ∧
    (afterTwoRuntimes.pc (.worker 1 0)).handed.map Entry.task = [6] ∧ Placed afterTwoRuntimes := by
  have hexec : (machine 32).exec (.new 32) twoRuntimes = some afterTwoRuntimes :=
    (Option.some_get _).symm
  have hr : (machine 32).Reachable afterTwoRuntimes := .of_exec (.init rfl) hexec
  exact ⟨hr, by decide +kernel, by decide +kernel, by decide +kernel, placed_of_reachable hr⟩

end ArcDischarge.Queues
