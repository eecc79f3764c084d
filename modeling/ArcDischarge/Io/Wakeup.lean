import ArcDischarge.Io.Served

/-!
# No lost I/O wake-up

A waiter looks at the word once more under the lock before it goes to sleep. An event that took
effect before that look and that it did not see had been cleared; one that takes effect after it
finds the waiter registered, because its `wake` takes the lock only after its exchange. So by the
time that `wake` has returned, the waker has been woken.

A future whose node has been removed is settled: no poll of it returns `Pending` any more.
-/

namespace ArcDischarge.Io

/-- Every event since the re-check whose `wake` has returned has woken the waker, and every event
before it had been cleared by then. -/
structure NoLostWake (m : Shared) (mask : Ready) (g : Stored) : Prop where
  woken : ∀ i, Matches m.log mask i → g.recheck ≤ i → i < m.returned →
    g.waker ∈ m.woken.drop g.wakes
  answered : Answered m.log mask g.recheck

/-- The next poll of future `k` returns `Ready`: no poll from here on returns `Pending`, and one
that finds the lock free comes to its end. -/
structure PollsReady (interest : ℕ → Interest) (k : ℕ) (c : State) : Prop where
  ready : ∀ as d, (machine interest).exec c as = some d →
    ∃ l, d.shared.results k = c.shared.results k ++ l ∧ ∀ r ∈ l, r = .ready
  returns : c.shared.lock = none → ∀ waker, ∃ d,
    (machine interest).exec c ((.future k, .poll waker) :: List.replicate 4 (.future k, .step)) =
      some d ∧ d.shared.results k = c.shared.results k ++ [.ready]

/-! ## Futures whose node has been removed -/

/-- The node has been removed, and the future has seen this or will at its next poll. -/
def Settled (n : Node) : Pc → Prop
  | .waiting | .waitLock _ | .inspect _ => n = .removed
  | .unlockDone | .doneLoad | .done | .dropped | .aborted => True
  | _ => False

variable {interest : ℕ → Interest} {m m' : Shared} {p p' q : Pc} {a : Label} {i : Agent} {k : ℕ}
  {c d : State}

theorem Settled.move (h : Settled (m.node k) p) (hmove : Move interest m (.future k) p a m' p') :
    Settled (m'.node k) p' ∧
      (m'.results k = m.results k ∨ m'.results k = m.results k ++ [.ready]) := by
  cases hmove with
  | doneLoad => exact ⟨trivial, Or.inr (by simp [Shared.returnReady])⟩
  | pollWaiting | waitLock => exact ⟨h, Or.inl rfl⟩
  | pollDone | drop | abort => exact ⟨trivial, Or.inl rfl⟩
  | inspectRemoved | inspectNew | unlockDone => exact ⟨trivial, Or.inl rfl⟩
  | inspectLinked hlinked =>
    rw [show m.node k = .removed from h] at hlinked
    cases hlinked
  | _ => exact h.elim

theorem Settled.mono {n n' : Node} (h : Settled n q) (hn : n = .removed → n' = .removed) :
    Settled n' q := by
  cases q <;> simp_all [Settled]

/-- Nobody else puts the node back, or returns from a poll of the future. -/
theorem Settled.other (h : Settled (m.node k) q) (hi : i ≠ .future k)
    (hmove : Move interest m i p a m' p') :
    Settled (m'.node k) q ∧ m'.results k = m.results k := by
  have hk (k' : ℕ) (hk' : i = .future k') : k ≠ k' := fun hkk ↦ hi (hkk ▸ hk')
  refine ⟨h.mono fun hremoved ↦ ?_, ?_⟩
  · cases hmove with
    | @scanRemove _ k' =>
      by_cases hkk : k = k'
      · simp [hkk]
      · simpa [hkk] using hremoved
    | register | inspectLinked | inspectRemoved =>
      exact (Function.update_of_ne (hk _ rfl) _ _).trans hremoved
    | _ => exact hremoved
  · cases hmove with
    | initReady | unlockPending | unlockReady | doneLoad =>
      exact Function.update_of_ne (hk _ rfl) _ _
    | _ => rfl

theorem Settled.step {a : Agent × Label} (h : Settled (c.shared.node k) (c.pc (.future k)))
    (hstep : (machine interest).step c a = some d) :
    Settled (d.shared.node k) (d.pc (.future k)) ∧
      (d.shared.results k = c.shared.results k ∨
        d.shared.results k = c.shared.results k ++ [.ready]) := by
  obtain ⟨m, p, hs, rfl⟩ := System.machine_step_eq_some.mp hstep
  have hmove := move_of_step hs
  by_cases hi : a.1 = .future k
  · rw [hi] at hmove
    simpa [hi] using h.move hmove
  · have hother := h.other hi hmove
    simpa [Ne.symm hi] using ⟨hother.1, Or.inl hother.2⟩

theorem Settled.exec (h : Settled (c.shared.node k) (c.pc (.future k))) {as : List (Agent × Label)}
    (hexec : (machine interest).exec c as = some d) :
    ∃ l, d.shared.results k = c.shared.results k ++ l ∧ ∀ r ∈ l, r = .ready := by
  induction as generalizing c with
  | nil =>
    rw [Machine.exec_nil, Option.some.injEq] at hexec
    exact ⟨[], by simp [hexec], by simp⟩
  | cons a as ih =>
    rw [Machine.exec_cons, Option.bind_eq_some_iff] at hexec
    obtain ⟨t, ht, hexec⟩ := hexec
    obtain ⟨hsettled, hresults⟩ := h.step ht
    obtain ⟨l, hl, hready⟩ := ih hsettled hexec
    rcases hresults with heq | heq
    · exact ⟨l, by rw [hl, heq], hready⟩
    · exact ⟨.ready :: l, by rw [hl, heq, List.append_assoc]; rfl, by simpa using hready⟩

theorem pollsReady_of_removed (hpc : c.pc (.future k) = .waiting)
    (hnode : c.shared.node k = .removed) : PollsReady interest k c where
  ready _ _ hexec := Settled.exec (by rw [hpc, hnode]; rfl) hexec
  returns hlock waker := by
    simp [List.replicate, Machine.exec_cons, System.machine, system, Io.step, futureStep, hpc,
      hnode, hlock, Shared.returnReady]

/-- **No I/O wake-up is lost**, neither of a future that waits nor of the last caller of a direction
that was told to wait. -/
theorem noLostWake_of_reachable (interest : ℕ → Interest) (c : State)
    (h : (machine interest).Reachable c) :
    (∀ k, c.pc (.future k) = .waiting →
      NoLostWake c.shared (.fromInterest (interest k)) (c.shared.stored k) ∧
        ∀ i, Matches c.shared.log (.fromInterest (interest k)) i →
          (c.shared.stored k).recheck ≤ i → i < c.shared.returned → PollsReady interest k c) ∧
      ∀ d g, c.shared.caller d = some g → g.pending = true →
        NoLostWake c.shared d.mask g.stored := by
  have hserved := (served_of_reachableUnder h).1
  refine ⟨fun k hk ↦ ?_, fun d g hg hpending ↦ ?_⟩
  · have hnode : c.shared.node k ≠ .new := ((sound_of_reachableUnder h).agent hk).node k rfl
    -- a matching event that is behind `returned` is through the list
    have hremoved (i : ℕ) (hi : Matches c.shared.log (.fromInterest (interest k)) i)
        (hrecheck : (c.shared.stored k).recheck ≤ i) (hreturned : i < c.shared.returned) :
        c.shared.node k = .removed := by
      cases hcase : c.shared.node k with
      | new => exact absurd hcase hnode
      | linked waker =>
        have := (hserved.linked k waker hcase).2 i hi hrecheck
        have := hserved.returned_le_listDone
        omega
      | removed => rfl
    refine ⟨⟨fun i hi hrecheck hreturned ↦ ?_, (hserved.registered k hnode).answered⟩,
      fun i hi hrecheck hreturned ↦ pollsReady_of_removed hk (hremoved i hi hrecheck hreturned)⟩
    refine (hserved.removed k (hremoved i hi hrecheck hreturned)).resolve_right fun hdue ↦ ?_
    exact absurd (hdue.2 i hi hrecheck) (Nat.not_le.mpr hreturned)
  · obtain ⟨hreg, hslot⟩ := hserved.caller d g hg hpending
    refine ⟨fun i hi hrecheck hreturned ↦ ?_, hreg.answered⟩
    rcases hslot with ⟨-, hsince⟩ | hwoken | hdue
    · have := hsince i hi hrecheck
      have := hserved.returned_le_slotsDone
      omega
    · exact hwoken
    · exact absurd (hdue.2 i hi hrecheck) (Nat.not_le.mpr hreturned)

/-- An event is cleared; then future 0 and a reader go to sleep; then another event comes, and its
`wake` returns. -/
def wokenWaiters : State :=
  ((machine fun _ ↦ .READABLE).exec (.new 0#64 (fun _ ↦ none) 0)
    (eventTurn readable 0 0 ++ captureRun 0 .READABLE ++ clearRun 0 0 ++ [(.thread 0, .step)] ++
      pendingRun 0 7 ++ [(.thread 1, .pollReadiness .read 9)] ++
      List.replicate 5 (.thread 1, .step) ++ eventTurn readable 1 1)).get (by decide +kernel)

theorem noLostWake_wokenWaiters : wokenWaiters.pc (.future 0) = .waiting ∧
    NoLostWake wokenWaiters.shared (.fromInterest .READABLE) (wokenWaiters.shared.stored 0) ∧
    PollsReady (fun _ ↦ .READABLE) 0 wokenWaiters ∧
    wokenWaiters.shared.caller .read = some ⟨1, ⟨9, 0, 2⟩, true⟩ ∧
    NoLostWake wokenWaiters.shared Direction.read.mask ⟨9, 0, 2⟩ := by
  have hwaiting : wokenWaiters.pc (.future 0) = .waiting := by decide +kernel
  have hcaller : wokenWaiters.shared.caller .read = some ⟨1, ⟨9, 0, 2⟩, true⟩ := by decide +kernel
  obtain ⟨hfuture, hthread⟩ := noLostWake_of_reachable (fun _ ↦ .READABLE) wokenWaiters
    (.of_exec (reachableUnder_new _ _) (Option.some_get _).symm)
  obtain ⟨hwoken, hready⟩ := hfuture 0 hwaiting
  have hmatch : Matches wokenWaiters.shared.log (.fromInterest .READABLE) 2 :=
    ⟨2, .READABLE, by decide +kernel, 0, by decide, by decide⟩
  exact ⟨hwaiting, hwoken, hready 2 hmatch (by decide +kernel) (by decide +kernel), hcaller,
    hthread _ _ hcaller rfl⟩

end ArcDischarge.Io
