import ArcDischarge.Io.Moves
import Mathlib.Data.List.Basic
import Mathlib.Logic.Relation

/-!
# One call of `wake`

`ScheduledIo::wake` from its call to its return, with nobody else moving. The loop looks at the
front of the list only: a node that the event satisfies is removed and the next one comes to the
front, but the branch for a node that it does not satisfy leaves the cursor where it is. So the call
returns, and does all it should, exactly when the event satisfies every node of the list.
-/

namespace ArcDischarge.Io

/-- The driver takes one step. -/
def Next (interest : ℕ → Interest) (x y : Shared × Pc) : Prop :=
  driverStep interest x.1 x.2 .step = some y

/-- The driver runs alone. -/
abbrev Runs (interest : ℕ → Interest) : Shared × Pc → Shared × Pc → Prop :=
  Relation.ReflTransGen (Next interest)

/-- The waiters when `wake` is called: nobody holds the lock, the array is empty, and the nodes of
the list are linked. -/
structure Shared.Waiting (m : Shared) : Prop where
  lock : m.lock = none
  wakers : m.wakers = []
  nodup : m.list.Nodup
  linked : ∀ k ∈ m.list, ∃ waker, m.node k = .linked waker

/-- The protected data of a linked node. -/
def Node.waker? : Node → Option Waker
  | .linked waker => some waker
  | .new | .removed => none

/-- What a call of `wake(ready)` has done when it returns. -/
structure Exact (interest : ℕ → Interest) (ready : Ready) (m m' : Shared) : Prop where
  woken : m'.woken = m.woken ++ (m.takenWakers ready ++
    (m.list.filter fun k ↦ ready.satisfies (interest k)).filterMap fun k ↦ (m.node k).waker?)
  slot : ∀ d, m'.slot d = if d.wokenBy ready then none else m.slot d
  list : m'.list = m.list.filter fun k ↦ !ready.satisfies (interest k)
  node : ∀ k, m'.node k =
    if k ∈ m.list ∧ ready.satisfies (interest k) = true then .removed else m.node k
  lock : m'.lock = none

/-- `wake(ready)` returns and is exact, does not overfill its array, and wakes outside the lock. -/
structure Wakes (interest : ℕ → Interest) (m : Shared) (event : ℕ) (ready : Ready) : Prop where
  returns : ∃ m', Runs interest (m, .wakeLock event ready) (m', .idle) ∧ Exact interest ready m m'
  array : ∀ x, Runs interest (m, .wakeLock event ready) x → x.1.wakers.length ≤ capacity
  outside : ∀ x y, Runs interest (m, .wakeLock event ready) x → Next interest x y →
    y.1.woken ≠ x.1.woken → x.1.lock = none

variable {interest : ℕ → Interest} {m m' : Shared} {p p' : Pc} {event : ℕ} {ready : Ready}

/-! ## The array and the lock -/

/-- The array is never too long, and the lock is free where wakers are woken. -/
def Tidy (x : Shared × Pc) : Prop :=
  x.1.wakers.length ≤ capacity ∧
    ((∃ event ready, x.2 = .drain event ready) ∨ (∃ event, x.2 = .finish event) → x.1.lock = none)

theorem length_takenWakers_le (m : Shared) (ready : Ready) : (m.takenWakers ready).length ≤ 2 := by
  have hslot (d : Direction) : (m.slot d).toList.length ≤ 1 := by
    cases m.slot d <;> simp
  have hread := hslot .read
  have hwrite := hslot .write
  rw [Shared.takenWakers, List.length_append]
  split_ifs <;> (try rw [List.length_nil]) <;> omega

theorem Tidy.next (hx : Tidy (m, p)) (h : Next interest (m, p) (m', p')) : Tidy (m', p') := by
  obtain ⟨hlen, hlock⟩ := hx
  change driverStep interest m p .step = some (m', p') at h
  cases move_of_driverStep h with
  | wakeLock => exact ⟨Nat.zero_le _, by simp⟩
  | takeSlots =>
    exact ⟨Nat.le_trans (length_takenWakers_le m _) (by decide), by simp⟩
  | scanFull | scanEnd => exact ⟨hlen, fun _ ↦ rfl⟩
  | scanRemove _ _ _ hroom =>
    refine ⟨?_, by simp⟩
    have hlt := Nat.lt_of_le_of_ne hlen hroom
    change (m.wakers ++ [_]).length ≤ _
    rw [List.length_append, List.length_singleton]
    exact hlt
  | @drainWake event ready _ _ hwakers =>
    change m.wakers.length ≤ _ at hlen
    rw [hwakers] at hlen
    exact ⟨Nat.le_of_succ_le hlen, fun _ ↦ hlock (.inl ⟨event, ready, rfl⟩)⟩
  | @finishWake event _ _ hwakers =>
    change m.wakers.length ≤ _ at hlen
    rw [hwakers] at hlen
    exact ⟨Nat.le_of_succ_le hlen, fun _ ↦ hlock (.inr ⟨event, rfl⟩)⟩
  | _ => exact ⟨hlen, by simp⟩

theorem Shared.Waiting.tidy (h : m.Waiting) {x : Shared × Pc}
    (hx : Runs interest (m, .wakeLock event ready) x) : Tidy x := by
  induction hx with
  | refl => exact ⟨by simp [h.wakers], by simp⟩
  | tail _ hnext ih => exact ih.next hnext

/-- Wakers are woken by the two draining loops only. -/
theorem Tidy.lock_eq_none (hx : Tidy (m, p)) (h : Next interest (m, p) (m', p'))
    (hwoken : m'.woken ≠ m.woken) : m.lock = none := by
  change driverStep interest m p .step = some (m', p') at h
  cases move_of_driverStep h with
  | @drainWake event ready => exact hx.2 (.inl ⟨event, ready, rfl⟩)
  | @finishWake event => exact hx.2 (.inr ⟨event, rfl⟩)
  | _ => exact absurd rfl hwoken

/-! ## A list that the event satisfies -/

/-- The last loop wakes the whole array, and the call returns. -/
theorem runs_finish (m : Shared) (event : ℕ) : Runs interest (m, .finish event)
    ({ m with wakers := [], woken := m.woken ++ m.wakers, returned := event + 1 }, .idle) := by
  obtain ⟨wakers, hwakers⟩ : ∃ wakers, m.wakers = wakers := ⟨_, rfl⟩
  induction wakers generalizing m with
  | nil =>
    refine .single ?_
    simp [Next, driverStep, hwakers]
  | cons waker rest ih =>
    refine .head (b := (m.wakeOne waker rest, .finish event)) ?_ ?_
    · simp [Next, driverStep, hwakers]
    · have hrest := ih (m.wakeOne waker rest) rfl
      simpa [Shared.wakeOne, hwakers] using hrest

/-- A full array is woken outside the lock, and the scan goes on. -/
theorem runs_drain (m : Shared) (event : ℕ) (ready : Ready) (hlock : m.lock = none) :
    Runs interest (m, .drain event ready)
      ({ m with wakers := [], woken := m.woken ++ m.wakers, lock := some .driver },
        .scan event ready) := by
  obtain ⟨wakers, hwakers⟩ : ∃ wakers, m.wakers = wakers := ⟨_, rfl⟩
  induction wakers generalizing m with
  | nil =>
    refine .single ?_
    simp [Next, driverStep, hwakers, hlock]
  | cons waker rest ih =>
    refine .head (b := (m.wakeOne waker rest, .drain event ready)) ?_ ?_
    · simp [Next, driverStep, hwakers]
    · have hrest := ih (m.wakeOne waker rest) hlock rfl
      simpa [Shared.wakeOne, hwakers] using hrest

/-- What the scan of a list has done, once the call returns. -/
structure Scanned (m m' : Shared) : Prop where
  woken : m'.woken = m.woken ++ m.wakers ++ m.list.filterMap fun k ↦ (m.node k).waker?
  slot : m'.slot = m.slot
  list : m'.list = []
  node : ∀ k, m'.node k = if k ∈ m.list then .removed else m.node k
  lock : m'.lock = none

/-- The scan makes room in the array. -/
theorem exists_runs_room (m : Shared) (event : ℕ) (ready : Ready)
    (hlen : m.wakers.length ≤ capacity) : ∃ m₁, Runs interest (m, .scan event ready)
      (m₁, .scan event ready) ∧ m₁.wakers.length < capacity ∧
      m₁.woken ++ m₁.wakers = m.woken ++ m.wakers ∧ m₁.slot = m.slot ∧ m₁.list = m.list ∧
      m₁.node = m.node := by
  by_cases hfull : m.wakers.length = capacity
  · have hnext : Next interest (m, .scan event ready)
        ({ m with lock := none }, .drain event ready) := by
      simp [Next, driverStep, hfull]
    exact ⟨_, .head hnext (runs_drain { m with lock := none } event ready rfl), by simp [capacity],
      by simp, rfl, rfl, rfl⟩
  · exact ⟨m, .refl, Nat.lt_of_le_of_ne hlen hfull, rfl, rfl, rfl, rfl⟩

theorem exists_runs_scan (m : Shared) (event : ℕ) (ready : Ready)
    (hlen : m.wakers.length ≤ capacity) (hnodup : m.list.Nodup)
    (hlinked : ∀ k ∈ m.list, ∃ waker, m.node k = .linked waker)
    (hsat : ∀ k ∈ m.list, ready.satisfies (interest k) = true) :
    ∃ m', Runs interest (m, .scan event ready) (m', .idle) ∧ Scanned m m' := by
  -- by induction on the list: every node that the scan meets is removed
  obtain ⟨list, hlist⟩ : ∃ list, m.list = list := ⟨_, rfl⟩
  induction list generalizing m with
  | nil =>
    obtain ⟨m₁, hruns, hroom, hwoken, hslot, hlist₁, hnode⟩ := exists_runs_room m event ready hlen
    refine ⟨_, hruns.trans (.head (b := ({ m₁ with lock := none, listDone := event + 1 },
      .finish event)) ?_ (runs_finish _ event)), ?_⟩
    · simp [Next, driverStep, hlist₁, hlist, Nat.ne_of_lt hroom]
    · exact ⟨by simp [hwoken, hlist], hslot, hlist₁.trans hlist, by simp [hnode, hlist], rfl⟩
  | cons k rest ih =>
    obtain ⟨m₁, hruns, hroom, hwoken, hslot, hlist₁, hnode⟩ := exists_runs_room m event ready hlen
    rw [hlist] at hnodup hlinked hsat hlist₁
    obtain ⟨waker, hwaker⟩ := hlinked k List.mem_cons_self
    have hk : ready.satisfies (interest k) = true := hsat k List.mem_cons_self
    obtain ⟨hkrest, hrest⟩ := List.nodup_cons.mp hnodup
    -- the front node is satisfied, and goes to the array
    let m₂ : Shared := { m₁ with list := rest, node := Function.update m₁.node k .removed
                                 wakers := m₁.wakers ++ [waker] }
    have hnext : Next interest (m₁, .scan event ready) (m₂, .scan event ready) := by
      simp [Next, driverStep, Nat.ne_of_lt hroom, hlist₁, hk, hnode, hwaker, m₂]
    have hnode₂ (j : ℕ) (hj : j ∈ rest) : m₂.node j = m.node j := by
      rw [← hnode]
      have hjk : j ≠ k := fun h ↦ hkrest (h ▸ hj)
      exact Function.update_of_ne hjk _ _
    have hlen₂ : m₂.wakers.length ≤ capacity := by
      simp only [m₂, List.length_append, List.length_singleton]
      exact hroom
    obtain ⟨m', hruns', hscanned⟩ := ih m₂ hlen₂ hrest
      (fun j hj ↦ hnode₂ j hj ▸ hlinked j (List.mem_cons_of_mem k hj))
      (fun j hj ↦ hsat j (List.mem_cons_of_mem k hj)) rfl
    refine ⟨m', (hruns.tail hnext).trans hruns', ?_, hscanned.slot.trans hslot, hscanned.list, ?_,
      hscanned.lock⟩
    · have hmap : (rest.filterMap fun j ↦ (m₂.node j).waker?) =
          rest.filterMap fun j ↦ (m.node j).waker? :=
        List.filterMap_congr fun j hj ↦ by rw [hnode₂ j hj]
      rw [hscanned.woken, hmap, hlist, ← hwoken]
      simp [m₂, hwaker, Node.waker?]
    · intro j
      rw [hscanned.node, hlist]
      by_cases hjk : j = k
      · subst hjk
        rw [if_neg hkrest, if_pos List.mem_cons_self]
        exact Function.update_self _ _ _
      · have hother : m₂.node j = m.node j := by
          rw [← hnode]
          exact Function.update_of_ne hjk _ _
        rw [hother]
        simp [hjk, m₂]

theorem exists_runs_wake (h : m.Waiting)
    (hsat : ∀ k ∈ m.list, ready.satisfies (interest k) = true) :
    ∃ m', Runs interest (m, .wakeLock event ready) (m', .idle) ∧ Exact interest ready m m' := by
  -- the state in which the scan begins
  let m₁ : Shared := { m with lock := some .driver, wakers := m.takenWakers ready
                              slot := fun d ↦ if d.wokenBy ready then none else m.slot d
                              slotsDone := event + 1 }
  have hlock : Next interest (m, .wakeLock event ready)
      ({ m with lock := some .driver, wakers := [] }, .takeSlots event ready) := by
    simp [Next, driverStep, h.lock]
  have htake : Next interest ({ m with lock := some .driver, wakers := [] }, .takeSlots event ready)
      (m₁, .scan event ready) := rfl
  have hlen : m₁.wakers.length ≤ capacity :=
    Nat.le_trans (length_takenWakers_le m ready) (by decide)
  obtain ⟨m', hruns, hscanned⟩ := exists_runs_scan m₁ event ready hlen h.nodup h.linked hsat
  refine ⟨m', .head hlock (.head htake hruns), ?_, fun d ↦ by rw [hscanned.slot], ?_, fun k ↦ ?_,
    hscanned.lock⟩
  · rw [hscanned.woken, List.append_assoc, List.filter_eq_self.mpr hsat]
  · rw [hscanned.list, List.filter_eq_nil_iff.mpr fun k hk ↦ by simp [hsat k hk]]
  · rw [hscanned.node]
    by_cases hk : k ∈ m.list
    · rw [if_pos hk, if_pos ⟨hk, hsat k hk⟩]
    · rw [if_neg hk, if_neg fun hand ↦ hk hand.1]

/-! ## A node that the event does not satisfy -/

/-- The call is in its loop, and the list has a node that the event does not satisfy. -/
def Stuck (interest : ℕ → Interest) (ready : Ready) (x : Shared × Pc) : Prop :=
  (∃ k ∈ x.1.list, ready.satisfies (interest k) = false) ∧
    ∃ event, x.2 = .wakeLock event ready ∨ x.2 = .takeSlots event ready ∨
      x.2 = .scan event ready ∨ x.2 = .drain event ready

theorem Stuck.next (hx : Stuck interest ready (m, p)) (h : Next interest (m, p) (m', p')) :
    Stuck interest ready (m', p') := by
  obtain ⟨⟨k, hk, hsat⟩, event, hp⟩ := hx
  change driverStep interest m p .step = some (m', p') at h
  change k ∈ m.list at hk
  cases move_of_driverStep h with
  | wakeLock => exact ⟨⟨k, hk, hsat⟩, event, by simpa using hp⟩
  | takeSlots => exact ⟨⟨k, hk, hsat⟩, event, by simpa using hp⟩
  | scanFull => exact ⟨⟨k, hk, hsat⟩, event, by simpa using hp⟩
  | scanEnd hlist => simp [hlist] at hk
  | scanRemove hlist hsat' =>
    refine ⟨⟨k, ?_, hsat⟩, event, hp⟩
    rw [hlist, List.mem_cons] at hk
    rcases hk with rfl | hk
    · obtain ⟨-, rfl⟩ : _ = event ∧ _ = ready := by simpa using hp
      simp [hsat] at hsat'
    · exact hk
  | scanStay => exact ⟨⟨k, hk, hsat⟩, event, hp⟩
  | drainWake => exact ⟨⟨k, hk, hsat⟩, event, hp⟩
  | drainLock => exact ⟨⟨k, hk, hsat⟩, event, by simpa using hp⟩
  | _ => simp at hp

/-- The call does not return: with such a node in the list it never leaves its loop. -/
theorem stuck_of_runs {k : ℕ} (hk : k ∈ m.list) (hsat : ready.satisfies (interest k) = false)
    {x : Shared × Pc} (hx : Runs interest (m, .wakeLock event ready) x) :
    Stuck interest ready x := by
  induction hx with
  | refl => exact ⟨⟨k, hk, hsat⟩, event, .inl rfl⟩
  | tail _ hnext ih => exact ih.next hnext

theorem not_runs_idle {k : ℕ} (hk : k ∈ m.list) (hsat : ready.satisfies (interest k) = false) :
    ¬Runs interest (m, .wakeLock event ready) (m', .idle) := by
  intro hruns
  obtain ⟨-, event', hp⟩ := stuck_of_runs hk hsat hruns
  simp at hp

/-- **`wake(ready)` is total and exact** for the lists all of whose nodes `ready` satisfies, and for
no others. -/
theorem wakes_iff (interest : ℕ → Interest) (m : Shared) (event : ℕ) (ready : Ready)
    (h : m.Waiting) :
    Wakes interest m event ready ↔ ∀ k ∈ m.list, ready.satisfies (interest k) = true := by
  constructor
  · intro hwakes k hk
    obtain ⟨m', hruns, -⟩ := hwakes.returns
    by_contra hsat
    exact not_runs_idle hk (Bool.eq_false_iff.mpr hsat) hruns
  · intro hsat
    exact ⟨exists_runs_wake h hsat, fun x hx ↦ (h.tidy hx).1,
      fun x y hx hxy hwoken ↦ (h.tidy hx).lock_eq_none hxy hwoken⟩

/-- A slot with a reader, a writer and the given list of nodes. -/
def withNodes (list : List ℕ) : Shared :=
  { (State.new 0#64 (fun _ ↦ some 100) 0).shared with
    list, node := fun k ↦ if k ∈ list then .linked k else .new }

/-- More nodes than the array holds, all of them waiting for a readable socket. -/
theorem wakes_manyReaders : (withNodes (List.range 40)).Waiting ∧
    Wakes (fun _ ↦ .READABLE) (withNodes (List.range 40)) 0 .READABLE := by
  have h : (withNodes (List.range 40)).Waiting :=
    ⟨rfl, rfl, List.nodup_range, fun k hk ↦ ⟨k, if_pos hk⟩⟩
  exact ⟨h, (wakes_iff _ _ _ _ h).mpr fun k _ ↦ by decide⟩

/-- Future 0 waits to write, the others wait to read. -/
def writerFirst (k : ℕ) : Interest := if k = 0 then .WRITABLE else .READABLE

/-- A socket becomes readable with a writer at the front of its list and a reader behind it. -/
theorem not_wakes_writerInFront : ¬∀ (interest : ℕ → Interest) (m : Shared) (event : ℕ)
    (ready : Ready), m.Waiting → Wakes interest m event ready := by
  intro h
  have hwaiting : (withNodes [0, 1]).Waiting :=
    ⟨rfl, rfl, by decide, fun k hk ↦ ⟨k, if_pos hk⟩⟩
  obtain ⟨m', hruns, -⟩ := (h writerFirst (withNodes [0, 1]) 0 .READABLE hwaiting).returns
  have hmem : 0 ∈ (withNodes [0, 1]).list := List.mem_cons_self
  have hfront : Ready.READABLE.satisfies (writerFirst 0) = false := by decide
  exact not_runs_idle hmem hfront hruns

end ArcDischarge.Io
