import ArcDischarge.Io.Moves
import ArcDischarge.Machine.Lock

/-!
# The waiter list and its futures

The futures whose nodes are in the list are those whose node is linked, each once; whoever touches
the list holds the lock; and how far a future is with its node can be read off its state: the node
is new in `Init` and in `Done`, and linked or removed in `Waiting`.

A future that is dropped leaves its node as it is, since there is no `Drop` for `Readiness`, and the
node of a future in `Waiting` is one that `pin_list` does not let go: its destructor aborts the
process, whether the node is still linked or a wake has removed it already. So a run goes on, and
has nodes of living futures in its list only, if and only if no future is dropped in `Waiting`.
-/

namespace ArcDischarge.Io

/-- Between the acquisition of `waiters` and its release. -/
def Pc.locks : Pc → Prop
  | .takeSlots _ _ | .scan _ _ => True
  | .recheck _ | .register _ _ | .registered _ | .inspect _ => True
  | .unlockPending | .unlockReady _ | .unlockDone => True
  | .store _ _ | .callRecheck _ | .callUnlock _ => True
  | _ => False

/-- The node of a future, by how far the future is. -/
def NodeAt (n : Node) : Pc → Prop
  | .init | .initLoad _ | .initLock _ | .recheck _ | .register _ _ => n = .new
  | .registered _ | .unlockPending => ∃ waker, n = .linked waker
  | .waiting | .waitLock _ | .inspect _ | .aborted => n ≠ .new
  | .unlockReady _ | .unlockDone | .doneLoad | .done | .dropped => n = .new
  | _ => False

structure Linked (m : Shared) : Prop where
  nodup : m.list.Nodup
  mem_iff : ∀ k, k ∈ m.list ↔ ∃ waker, m.node k = .linked waker

structure Sound (i : Agent) (m : Shared) (p : Pc) : Prop where
  locks : p.locks → m.lock = some i
  node : ∀ k, i = .future k → NodeAt (m.node k) p

variable {interest : ℕ → Interest} {m m' : Shared} {p p' q : Pc} {a : Label} {i j : Agent}
  {c d : State}

theorem lockStep_of_move (hmove : Move interest m i p a m' p') :
    LockStep i m.lock m'.lock p.locks p'.locks := by
  cases hmove with
  | wakeLock h | drainLock _ h | initLock h | waitLock h | callLock h =>
    exact .acquire h rfl trivial
  | scanFull | scanEnd | registered | unlockPending | unlockReady | unlockDone | callUnlock =>
    exact .release trivial rfl not_false
  | drop hp | abort hp =>
    refine .keep rfl ?_
    rcases hp with rfl | rfl | rfl <;> rfl
  | _ => exact .keep rfl Iff.rfl

theorem Linked.move (h : Linked m) (hmove : Move interest m i p a m' p') : Linked m' := by
  obtain ⟨hnodup, hmem⟩ := h
  cases hmove with
  | @scanRemove _ k _ rest _ hlist =>
    rw [hlist] at hnodup hmem
    rw [List.nodup_cons] at hnodup
    refine ⟨hnodup.2, fun k' ↦ ?_⟩
    by_cases hk : k' = k
    · subst hk
      simp [hnodup.1]
    · simpa [hk] using hmem k'
  | @register k _ _ hnew =>
    have hk : k ∉ m.list := fun hk ↦ by
      obtain ⟨w, hw⟩ := (hmem k).mp hk
      simp [hnew] at hw
    refine ⟨List.nodup_cons.mpr ⟨hk, hnodup⟩, fun k' ↦ ?_⟩
    by_cases hk' : k' = k
    · simp [hk']
    · simpa [hk'] using hmem k'
  | @inspectLinked k _ _ hlinked =>
    refine ⟨hnodup, fun k' ↦ ?_⟩
    by_cases hk' : k' = k
    · subst hk'
      simp [(hmem k').mpr ⟨_, hlinked⟩]
    · simpa [hk'] using hmem k'
  | @inspectRemoved k _ hremoved =>
    refine ⟨hnodup, fun k' ↦ ?_⟩
    by_cases hk' : k' = k
    · subst hk'
      simp [hmem k', hremoved]
    · simpa [hk'] using hmem k'
  | _ => exact ⟨hnodup, hmem⟩

/-- How far the future has come with its node. -/
theorem NodeAt.move {k : ℕ} (h : NodeAt (m.node k) p)
    (hmove : Move interest m (.future k) p a m' p') : NodeAt (m'.node k) p' := by
  cases hmove with
  | drop _ hnew => exact hnew
  | abort _ hnode => exact hnode
  | register | inspectLinked => exact ⟨_, Function.update_self _ _ _⟩
  | registered | unlockPending =>
    obtain ⟨waker, hlinked⟩ := h
    exact fun hnew ↦ by
      rw [show m.node k = .new from hnew] at hlinked
      cases hlinked
  | inspectRemoved => exact Function.update_self _ _ _
  | inspectNew hnew => exact hnew
  | _ => exact h

/-- A node may be removed while its future does not hold the lock. -/
theorem NodeAt.remove {waker : Waker} (h : NodeAt (.linked waker) q) (hq : ¬q.locks) :
    NodeAt .removed q := by
  cases q <;> simp_all [NodeAt, Pc.locks]

/-- Nobody else touches the node of a future, except to remove it under the lock. -/
theorem node_of_move {k : ℕ} (hmove : Move interest m i p a m' p') (hi : i ≠ .future k) :
    m'.node k = m.node k ∨
      p.locks ∧ ∃ waker, m.node k = .linked waker ∧ m'.node k = .removed := by
  cases hmove with
  | @scanRemove _ j _ _ waker _ _ hlinked =>
    by_cases hk : k = j
    · subst hk
      exact Or.inr ⟨trivial, waker, hlinked, Function.update_self _ _ _⟩
    · exact Or.inl (Function.update_of_ne hk _ _)
  | @register j | @inspectLinked j | @inspectRemoved j =>
    have hk : k ≠ j := fun hk ↦ hi (congrArg Agent.future hk.symm)
    exact Or.inl (Function.update_of_ne hk _ _)
  | _ => exact Or.inl rfl

theorem Sound.move (hok : Sound i m p) (hmove : Move interest m i p a m' p') :
    Sound i m' p' where
  locks := (lockStep_of_move hmove).held_of_inside hok.locks
  node k hk := by
    subst hk
    exact (hok.node k rfl).move hmove

theorem Sound.other (hi : Sound i m p) (hok : Sound j m q) (hj : j ≠ i)
    (hmove : Move interest m i p a m' p') : Sound j m' q where
  locks hq := (lockStep_of_move hmove).held_of_ne hi.locks hj (hok.locks hq)
  node k hk := by
    rcases node_of_move hmove (k := k) fun heq ↦ hj (hk.trans heq.symm) with
      hnode | ⟨hlocks, waker, hlinked, hremoved⟩
    · rw [hnode]
      exact hok.node k hk
    · -- whoever removes the node holds the lock, so the future does not
      have hfree : ¬q.locks := fun hq ↦
        hj (Option.some.inj ((hok.locks hq).symm.trans (hi.locks hlocks)))
      have hq := hok.node k hk
      rw [hlinked] at hq
      rw [hremoved]
      exact hq.remove hfree

theorem sound_of_reachableUnder {G : State → Agent × Label → Prop}
    (h : (machine interest).ReachableUnder G c) : System.Holds Linked Sound c := by
  refine System.holds_of_reachableUnder h ?_ ?_ ?_
  · rintro _ ⟨word, slot, turn, -, rfl⟩
    refine ⟨⟨List.nodup_nil, by simp [State.new]⟩, fun i ↦ ⟨?_, ?_⟩⟩
    · cases i <;> simp [State.new, Pc.locks]
    · rintro k rfl
      rfl
  · intro c i a m p _ hc _ hstep
    have hmove := move_of_step hstep
    exact ⟨hc.1.move hmove, (hc.2 i).move hmove⟩
  · intro c i a m p _ hc _ hstep j hj
    exact (hc.2 i).other (hc.2 j) hj (move_of_step hstep)

/-! ## Cancel safety -/

/-- Alive and in `State::Waiting`. -/
def Pc.isWaiting : Pc → Prop
  | .registered _ | .waiting | .waitLock _ | .inspect _ | .unlockPending => True
  | _ => False

/-- Every linked node belongs to a future that is alive and waits. -/
def WaitersAlive (c : State) : Prop := ∀ k ∈ c.shared.list, (c.pc (.future k)).isWaiting

/-- No drop has aborted the process, and none has left a node in the list. -/
structure CancelSafe (c : State) : Prop where
  alive : WaitersAlive c
  returned : ∀ k, c.pc (.future k) ≠ .aborted

/-- A future is dropped in `State::Init` or `State::Done`; during a poll it is not dropped. -/
def DropsOutsideWaiting (c : State) : Agent × Label → Prop
  | (.future k, .drop) => c.pc (.future k) ≠ .waiting
  | _ => True

instance (c : State) : ∀ a, Decidable (DropsOutsideWaiting c a)
  | (.future k, .drop) => inferInstanceAs (Decidable (c.pc (.future k) ≠ .waiting))
  | (.driver, _) | (.thread _, _) => inferInstanceAs (Decidable True)
  | (.future _, .step) | (.future _, .turn _) | (.future _, .poll _)
  | (.future _, .pollReadiness _ _) | (.future _, .readyEvent _)
  | (.future _, .clearReadiness _) => inferInstanceAs (Decidable True)

theorem isWaiting_or_aborted {waker : Waker} (h : NodeAt (.linked waker) p) :
    p.isWaiting ∨ p = .aborted := by
  cases p <;> simp_all [NodeAt, Pc.isWaiting]

/-- As long as no drop has aborted the process, the list is in order. -/
theorem cancelSafe_of_returned (hc : (machine interest).Reachable c)
    (hreturned : ∀ k, c.pc (.future k) ≠ .aborted) : CancelSafe c := by
  refine ⟨fun k hk ↦ ?_, hreturned⟩
  obtain ⟨hlinked, hsound⟩ := sound_of_reachableUnder hc
  obtain ⟨waker, hwaker⟩ := (hlinked.mem_iff k).mp hk
  have hnode := (hsound (.future k)).node k rfl
  rw [hwaker] at hnode
  exact (isWaiting_or_aborted hnode).resolve_right (hreturned k)

/-- A future that is not in `State::Waiting` has nothing to undo when it is dropped. -/
theorem Sound.node_eq_new {k : ℕ} (h : Sound (.future k) m p)
    (hp : p = .init ∨ p = .waiting ∨ p = .done) (hwaiting : p ≠ .waiting) : m.node k = .new := by
  have hnode := h.node k rfl
  rcases hp with rfl | rfl | rfl
  · exact hnode
  · exact absurd rfl hwaiting
  · exact hnode

theorem ne_aborted_of_step {a : Agent × Label} (hc : (machine interest).Reachable c)
    (hreturned : ∀ k, c.pc (.future k) ≠ .aborted) (hG : DropsOutsideWaiting c a)
    (hstep : (machine interest).step c a = some d) (k : ℕ) : d.pc (.future k) ≠ .aborted := by
  obtain ⟨i, a⟩ := a
  obtain ⟨m, p, hs, rfl⟩ := System.machine_step_eq_some.mp hstep
  have hmove := move_of_step hs
  by_cases hi : Agent.future k = i
  · subst hi
    have hsound := (sound_of_reachableUnder hc).2 (.future k)
    simp only [Function.update_self]
    generalize hpc : c.pc (.future k) = q at hmove hsound
    cases hmove with
    | abort hq hnode => exact absurd (hsound.node_eq_new hq (hpc ▸ hG)) hnode
    | _ => simp
  · simpa [hi] using hreturned k

/-- A drop in `State::Waiting` aborts the process, since the node is linked or removed. -/
theorem dropsOutsideWaiting_of_cancelSafe {a : Agent × Label} (hc : (machine interest).Reachable c)
    (h : ∀ d, (machine interest).step c a = some d → CancelSafe d) : DropsOutsideWaiting c a := by
  unfold DropsOutsideWaiting
  split
  · rename_i k
    intro hpc
    have hnode := ((sound_of_reachableUnder hc).2 (.future k)).node k rfl
    rw [hpc] at hnode
    have hstep : (machine interest).step c (.future k, .drop) =
        some ⟨c.shared, Function.update c.pc (.future k) .aborted⟩ :=
      System.machine_step_eq_some.mpr ⟨_, _, by rw [hpc, ← dropNode_eq_aborted hnode]; rfl, rfl⟩
    exact (h _ hstep).returned k (by simp)
  · trivial

/-- **Cancel safety**: a run has nodes of waiting, living futures in its list only, and no drop in
it aborts the process, if and only if no future is dropped in `State::Waiting`. -/
theorem cancelSafe_iff (interest : ℕ → Interest) (s : State) (as : List (Agent × Label))
    (hinit : (system interest).init s) :
    (machine interest).Along
        (fun c a ↦ ∀ d, (machine interest).step c a = some d → CancelSafe d) s as ↔
      (machine interest).Along DropsOutsideWaiting s as := by
  have hreturned (k : ℕ) : s.pc (.future k) ≠ .aborted := by
    obtain ⟨word, slot, turn, -, rfl⟩ := hinit
    simp [State.new]
  refine Machine.along_iff (I := fun c ↦ (machine interest).Reachable c ∧
    ∀ k, c.pc (.future k) ≠ .aborted) ⟨.init hinit, hreturned⟩ (fun c a d hc hdrop hd ↦ ?_)
    (fun _ hc ↦ cancelSafe_of_returned hc.1 hc.2)
    (fun c a hc h ↦ dropsOutsideWaiting_of_cancelSafe hc.1 h) as
  exact ⟨.step hc.1 trivial hd, ne_aborted_of_step hc.1 hc.2 hdrop hd⟩

/-- A poll of future `k` that returns `Pending`. -/
def pendingRun (k : ℕ) (waker : Waker) : List (Agent × Label) :=
  (.future k, .poll waker) :: List.replicate 8 (.future k, .step)

/-- A poll of future `k` after its node has been removed. -/
def finishRun (k : ℕ) (waker : Waker) : List (Agent × Label) :=
  (.future k, .poll waker) :: List.replicate 4 (.future k, .step)

/-- Two futures wait, and the driver wakes both. One is polled to the end and dropped, and so is a
third one that was never polled. -/
def droppedDone : List (Agent × Label) :=
  pendingRun 0 7 ++ pendingRun 1 8 ++ eventTurn readable 2 0 ++ finishRun 1 8 ++
    [(.future 1, .drop), (.future 2, .drop)]

theorem cancelSafe_droppedDone :
    ((machine fun _ ↦ .READABLE).exec (.new 0#64 (fun _ ↦ none) 0) droppedDone).isSome ∧
    (machine fun _ ↦ .READABLE).Along
      (fun c a ↦ ∀ d, (machine fun _ ↦ .READABLE).step c a = some d → CancelSafe d)
      (.new 0#64 (fun _ ↦ none) 0) droppedDone :=
  ⟨by decide +kernel, (cancelSafe_iff _ _ _ ⟨_, _, _, Or.inl rfl, rfl⟩).mpr (by decide +kernel)⟩

/-- A future that has returned `Pending` is dropped before any event. -/
def droppedWaiting : State :=
  ((machine fun _ ↦ .READABLE).exec (.new 0#64 (fun _ ↦ none) 0)
    (pendingRun 0 7 ++ [(.future 0, .drop)])).get (by decide +kernel)

/-- Its node is still in the list when the destructor of the node aborts the process. -/
theorem not_waitersAlive_droppedWaiting :
    ¬∀ c, (machine fun _ ↦ .READABLE).Reachable c → WaitersAlive c := by
  intro h
  have hlinked : 0 ∈ droppedWaiting.shared.list := by decide +kernel
  have hpc : droppedWaiting.pc (.future 0) = .aborted := by decide +kernel
  have hwaiting := h droppedWaiting
    (.of_exec (reachableUnder_new _ _) (Option.some_get _).symm) 0 hlinked
  rw [hpc] at hwaiting
  exact hwaiting

end ArcDischarge.Io
