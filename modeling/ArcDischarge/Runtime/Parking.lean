import ArcDischarge.Runtime.Locks
import ArcDischarge.SyncSlotMap.Fifo

/-!
# The parking protocol

A worker pushes its index on `parked_workers` when it finds its parker unset, sets the parker and
waits; a scheduler pops an index, unsets the parker and notifies. As long as only schedulers unset a
parker that is set, an index is in the queue, or in the hand of a scheduler, exactly while its
worker is parked, so that a worker never pushes itself twice.

The worker unsets its parker itself when its wait returns. This does nothing after a notification,
but after a spurious return it may unset a parker that is still set: the worker is then in the queue
and not parked, and pushes itself again. `ResumesCleared` is the condition that this does not
happen.
-/

namespace ArcDischarge.Runtime

/-- A worker whose wait has returned finds its parker unset. -/
def ResumesCleared (c : State) : Thread × Label → Prop
  | (.worker i, .step) => (c.pc (.worker i)).base = .unpark → c.shared.parker i = none
  | _ => True

instance (c : State) : (a : Thread × Label) → Decidable (ResumesCleared c a)
  | (.worker i, .step) =>
    inferInstanceAs (Decidable ((c.pc (.worker i)).base = .unpark → c.shared.parker i = none))
  | (.worker _, .spurious) | (.worker _, .scheduleLocal _) | (.worker _, .scheduleGlobal _)
  | (.worker _, .pollReturn _) | (.other _, _) => isTrue trivial

/-- The scheduler at the queue has popped worker `i` and not yet inspected its parker. -/
def InHand (c : State) (i : ℕ) : Prop :=
  ∃ θ, c.shared.parkedLock = some θ ∧
    ((c.pc θ).call = some (.lockParker i) ∨ (c.pc θ).call = some (.inspect i))

/-- A worker at this point has swapped itself into the queue and not yet begun to wait. -/
def PastSwap : Base → Option SyncSlotMap.PushPc → Prop
  | .pushing, some (.link _) | .park, _ | .wait, _ => True
  | _, _ => False

/-- How a worker's program counter, its `push` and its parker go together with its being in the
queue or in the hand of a scheduler. -/
structure ParkOk (b : Base) (pc : Option SyncSlotMap.PushPc) (parker : Option WorkerThreadWaker)
    (queued inHand : Prop) : Prop where
  pushing : pc ≠ none ↔ b = .pushing
  wait : b = .wait → parker = some .parked
  listed : PastSwap b pc ∨ parker = some .parked → (queued ∧ ¬inHand) ∨ (¬queued ∧ inHand)
  unlisted : ¬PastSwap b pc → parker = none → ¬queued ∧ ¬inHand

/-- Worker `i` keeps to the protocol. -/
def Parks (c : State) (i : ℕ) : Prop :=
  ParkOk (c.pc (.worker i)).base (c.shared.parkedWorkers.pushing i) (c.shared.parker i)
    (i ∈ c.shared.parkedWorkers.queue) (InHand c i)

/-- The invariant of the protocol. -/
structure ParkInv (n : ℕ) (c : State) : Prop where
  map : SyncSlotMap.Inv n c.shared.parkedWorkers
  parks : ∀ i, Parks c i

variable {n i j : ℕ} {θ : Thread} {m m' : Shared} {ℓ ℓ' : Local} {a : Label} {c : State}

/-! ## The protocol of one worker -/

namespace ParkOk

variable {b b' : Base} {pc pc' : Option SyncSlotMap.PushPc}
  {parker parker' : Option WorkerThreadWaker} {Q H : Prop}

/-- A worker that is listed, in the queue or in a hand. -/
theorem of_listed (hpush : pc ≠ none ↔ b = .pushing) (hwait : b = .wait → parker = some .parked)
    (hlisted : (Q ∧ ¬H) ∨ (¬Q ∧ H)) (h : PastSwap b pc ∨ parker = some .parked) :
    ParkOk b pc parker Q H where
  pushing := hpush
  wait := hwait
  listed _ := hlisted
  unlisted hpast hparker := by
    rcases h with h | h
    · exact absurd h hpast
    · rw [hparker] at h
      cases h

theorem of_unlisted (hpush : pc ≠ none ↔ b = .pushing) (hwait : b ≠ .wait)
    (hpast : ¬PastSwap b pc) (hparker : parker = none) (h : ¬Q ∧ ¬H) :
    ParkOk b pc parker Q H where
  pushing := hpush
  wait hb := absurd hb hwait
  listed hor := by
    rcases hor with hor | hor
    · exact absurd hor hpast
    · rw [hparker] at hor
      cases hor
  unlisted _ _ := h

/-- A worker is taken from the queue. -/
theorem pop (h : ParkOk b pc parker Q H) (hQ : Q) : ParkOk b pc parker False True where
  pushing := h.pushing
  wait := h.wait
  listed _ := Or.inr ⟨id, trivial⟩
  unlisted hpast hparker := absurd hQ (h.unlisted hpast hparker).1

/-- The parker of a worker in the hand is unset. -/
theorem clear (h : ParkOk b pc (some .parked) Q H) (hH : H) (hb : b = .waiting ∨ b = .relock) :
    ParkOk b pc none Q False := by
  have hQ : ¬Q := (h.listed (Or.inr rfl)).elim (fun hor ↦ absurd hH hor.2) fun hor ↦ hor.1
  refine of_unlisted h.pushing ?_ ?_ rfl ⟨hQ, id⟩
  · rcases hb with rfl | rfl <;> simp
  · rcases hb with rfl | rfl <;> simp [PastSwap]

theorem not_pastSwap (hb : b ≠ .pushing ∧ b ≠ .park ∧ b ≠ .wait) : ¬PastSwap b pc := by
  obtain ⟨hpushing, hpark, hwait⟩ := hb
  cases b <;> simp_all [PastSwap]

/-- A worker steps through its loop outside the parking branch. -/
theorem elsewhere (h : ParkOk b pc parker Q H) (hb : b ≠ .pushing ∧ b ≠ .park ∧ b ≠ .wait)
    (hb' : b' ≠ .pushing ∧ b' ≠ .park ∧ b' ≠ .wait) : ParkOk b' pc parker Q H where
  pushing := iff_of_false (fun hpc ↦ hb.1 (h.pushing.mp hpc)) hb'.1
  wait hwait := absurd hwait hb'.2.2
  listed hor := h.listed (Or.inr (hor.resolve_left (not_pastSwap hb')))
  unlisted _ := h.unlisted (not_pastSwap hb)

end ParkOk

/-- The form in which the steps establish it: from what each component has become. -/
theorem Parks.of {b : Base} {pc : Option SyncSlotMap.PushPc} {parker : Option WorkerThreadWaker}
    {Q H : Prop} (hok : ParkOk b pc parker Q H)
    (hb : (c.pc (.worker i)).base = b) (hpc : c.shared.parkedWorkers.pushing i = pc)
    (hparker : c.shared.parker i = parker) (hqueue : i ∈ c.shared.parkedWorkers.queue ↔ Q)
    (hhand : InHand c i ↔ H) : Parks c i := by
  unfold Parks
  rwa [hb, hpc, hparker, hqueue, hhand]

/-! ## The hand -/

theorem inHand_iff (h : c.shared.parkedLock = some θ) : InHand c i ↔
    (c.pc θ).call = some (.lockParker i) ∨ (c.pc θ).call = some (.inspect i) := by
  constructor
  · rintro ⟨θ', hθ', hcall⟩
    obtain rfl : θ' = θ := Option.some.inj (hθ'.symm.trans h)
    exact hcall
  · exact fun hcall ↦ ⟨θ, h, hcall⟩

theorem inHand_own (h : m'.parkedLock = some θ) : InHand ⟨m', Function.update c.pc θ ℓ'⟩ i ↔
    ℓ'.call = some (.lockParker i) ∨ ℓ'.call = some (.inspect i) := by
  rw [inHand_iff h]
  simp

theorem inHand_frame (h : m'.parkedLock = c.shared.parkedLock)
    (hne : c.shared.parkedLock ≠ some θ) :
    InHand ⟨m', Function.update c.pc θ ℓ'⟩ i ↔ InHand c i := by
  refine exists_congr fun θ' ↦ ?_
  rw [h]
  refine and_congr_right fun hθ' ↦ ?_
  have hθ : θ' ≠ θ := fun heq ↦ hne (heq ▸ hθ')
  simp [hθ]

theorem not_inHand (h : c.shared.parkedLock = none) : ¬InHand c i := by
  rintro ⟨θ', hθ', -⟩
  simp [h] at hθ'

/-- A step of `pop()` moves the front of the queue into the hand, or nothing. -/
theorem afterPop_cases {q q' : SyncSlotMap.State} (h : SyncSlotMap.Inv n q)
    (hstep : SyncSlotMap.step q .popStep = some q') :
    (q'.queue = q.queue ∧ ∀ i, afterPop n q' ≠ .lockParker i) ∨
      ∃ i, q.queue = i :: q'.queue ∧ afterPop n q' = .lockParker i := by
  obtain ⟨-, ⟨hp, hq⟩ | ⟨r, hp, hcalls, hq⟩⟩ := h.queue_popStep hstep
  · obtain ⟨k, hk⟩ := Option.ne_none_iff_exists'.mp hp
    exact Or.inl ⟨hq, by simp [afterPop, hk]⟩
  · obtain ⟨res, x, y, z⟩ := r
    cases res with
    | ready i =>
      have hi : i < n := by
        refine h.swaps_lt i (h.returned_append_queue ▸ List.mem_append_right _ ?_)
        rw [hq]
        exact List.mem_append_left _ (List.mem_singleton_self i)
      exact Or.inr ⟨i, hq, by simp [afterPop, hp, hcalls, hi]⟩
    | inconsistent => exact Or.inl ⟨hq.symm, by simp [afterPop, hp, hcalls]⟩
    | none => exact Or.inl ⟨hq.symm, by simp [afterPop, hp, hcalls]⟩

/-! ## The steps of a scheduler -/

/-- The steps that do not concern the hand or the queue. -/
theorem ParkInv.call_frame {k' : Option Call} (hI : ParkInv n c)
    (hmap : m'.parkedWorkers = c.shared.parkedWorkers) (hparker : m'.parker = c.shared.parker)
    (hhand : ∀ i, InHand ⟨m', Function.update c.pc θ { c.pc θ with call := k' }⟩ i ↔ InHand c i) :
    ParkInv n ⟨m', Function.update c.pc θ { c.pc θ with call := k' }⟩ := by
  refine ⟨hmap ▸ hI.map, fun j ↦ ?_⟩
  unfold Parks
  rw [base_update_call, hmap, hparker, hhand]
  exact hI.parks j

/-- The steps under the lock of `parked_workers` that keep the hand as it is. -/
theorem ParkInv.call_held {k : Call} {k' : Option Call} (hI : ParkInv n c)
    (hk : (c.pc θ).call = some k) (hlock : c.shared.parkedLock = some θ)
    (hlock' : m'.parkedLock = some θ) (hmap : m'.parkedWorkers = c.shared.parkedWorkers)
    (hparker : m'.parker = c.shared.parker)
    (hhand : ∀ i, k' = some (.lockParker i) ∨ k' = some (.inspect i) ↔
      k = .lockParker i ∨ k = .inspect i) :
    ParkInv n ⟨m', Function.update c.pc θ { c.pc θ with call := k' }⟩ := by
  refine hI.call_frame hmap hparker fun i ↦ ?_
  rw [inHand_own hlock', inHand_iff hlock, hhand, hk, Option.some.injEq, Option.some.injEq]

/-- `pop()` takes the front of the queue into the hand. -/
theorem ParkInv.call_pop {q : SyncSlotMap.State} (hI : ParkInv n c)
    (hk : (c.pc θ).call = some .pop) (hlock : c.shared.parkedLock = some θ)
    (hq : SyncSlotMap.step c.shared.parkedWorkers .popStep = some q) :
    ParkInv n ⟨{ c.shared with parkedWorkers := q },
      Function.update c.pc θ { c.pc θ with call := some (afterPop n q) }⟩ := by
  refine ⟨hI.map.step (a := .popStep) trivial hq, fun j ↦ ?_⟩
  have hpushing := congrFun (hI.map.queue_popStep hq).1 j
  have hnot : ¬InHand c j := by simp [inHand_iff hlock, hk]
  have hne : afterPop n q ≠ .inspect j := fun heq ↦ (afterPop_target n q).2.1 j (heq ▸ rfl)
  have hhand : InHand ⟨{ c.shared with parkedWorkers := q },
      Function.update c.pc θ { c.pc θ with call := some (afterPop n q) }⟩ j ↔
        afterPop n q = .lockParker j := (inHand_own hlock).trans (by simp [hne])
  rcases afterPop_cases hI.map hq with ⟨hqueue, hafter⟩ | ⟨i, hqueue, hafter⟩
  · exact Parks.of (hI.parks j) (base_update_call ..) hpushing rfl (by rw [hqueue])
      (hhand.trans (iff_of_false (hafter j) hnot))
  -- `pop` has returned `i`, which is in the queue once
  · have hnodup := hI.map.nodup_queue
    rw [hqueue, List.nodup_cons] at hnodup
    by_cases hj : j = i
    · subst hj
      have hmem : j ∈ c.shared.parkedWorkers.queue := hqueue ▸ List.mem_cons_self
      exact Parks.of ((hI.parks j).pop hmem) (base_update_call ..) hpushing rfl
        (iff_of_false hnodup.1 id) (hhand.trans (iff_of_true hafter trivial))
    · refine Parks.of (hI.parks j) (base_update_call ..) hpushing rfl ?_
        (hhand.trans (iff_of_false ?_ hnot))
      · rw [hqueue, List.mem_cons, or_iff_right hj]
      · rw [hafter]
        exact fun heq ↦ hj (Call.lockParker.inj heq).symm

/-- The scheduler unsets the parker of the worker in its hand. -/
theorem ParkInv.call_inspect (hI : ParkInv n c) (hok : ∀ θ, Ok n θ c.shared (c.pc θ))
    (hk : (c.pc θ).call = some (.inspect i)) (hlock : c.shared.parkedLock = some θ)
    (hp : c.shared.parker i = some .parked) :
    ParkInv n ⟨{ c.shared with parker := Function.update c.shared.parker i none },
      Function.update c.pc θ { c.pc θ with call := some (.notify i) }⟩ := by
  refine ⟨hI.map, fun j ↦ ?_⟩
  have hhand : InHand ⟨{ c.shared with parker := Function.update c.shared.parker i none },
      Function.update c.pc θ { c.pc θ with call := some (.notify i) }⟩ j ↔ False :=
    (inHand_own hlock).trans (by simp)
  by_cases hj : j = i
  · subst hj
    have hparks := hI.parks j
    unfold Parks at hparks
    rw [hp] at hparks
    exact Parks.of (hparks.clear ((inHand_iff hlock).mpr (Or.inr hk)) (waiter_of_inspect hok hk hp))
      (base_update_call ..) rfl (Function.update_self _ _ _) Iff.rfl hhand
  · refine Parks.of (hI.parks j) (base_update_call ..) rfl (Function.update_of_ne hj _ _) Iff.rfl
      (hhand.trans (iff_of_false id ?_))
    rw [inHand_iff hlock, hk]
    simp [Ne.symm hj]

/-- A worker in the hand of a scheduler has its parker set. -/
theorem ParkInv.parker_of_inspect (hI : ParkInv n c) (hok : ∀ θ, Ok n θ c.shared (c.pc θ))
    (hk : (c.pc θ).call = some (.inspect i)) (hlock : c.shared.parkedLock = some θ) :
    c.shared.parker i ≠ none := by
  have hnot := not_holdsParker_of_call (i := i) hok hk rfl
  have hi := hI.parks i
  intro hp
  refine (hi.unlisted (fun hpast ↦ hnot ?_) hp).2 ((inHand_iff hlock).2 (.inr hk))
  revert hpast
  cases (c.pc (.worker i)).base <;> simp [PastSwap, Base.holdsParker]

theorem ParkInv.call {k : Call} {k' : Option Call} (hI : ParkInv n c) (hn : c.shared.n = n)
    (hok : ∀ θ, Ok n θ c.shared (c.pc θ)) (hk : (c.pc θ).call = some k)
    (hmove : CallMove θ c.shared k m' k') :
    ParkInv n ⟨m', Function.update c.pc θ { c.pc θ with call := k' }⟩ := by
  have hown (h : k.holdsParked) : c.shared.parkedLock = some θ := (hok θ).parked.2 ⟨k, hk, h⟩
  have hother (h : ¬k.holdsParked) : c.shared.parkedLock ≠ some θ := fun heq ↦ by
    obtain ⟨k', hk', h'⟩ := (hok θ).parked.1 heq
    rw [hk, Option.some.injEq] at hk'
    exact h (hk' ▸ h')
  cases hmove with
  | push t => exact hI.call_frame rfl rfl fun i ↦ inHand_frame rfl (hother id)
  | skip h => exact hI.call_frame rfl rfl fun i ↦ inHand_frame rfl (hother id)
  | lock h =>
    refine hI.call_frame rfl rfl fun i ↦ ?_
    rw [inHand_own rfl]
    simp [not_inHand h]
  | callPop hq =>
    obtain ⟨hqueue, hpushing⟩ := SyncSlotMap.queue_pop hq
    refine ⟨hI.map.step (a := .pop) trivial hq, fun j ↦ ?_⟩
    refine Parks.of (hI.parks j) (base_update_call ..) (congrFun hpushing j) rfl (by rw [hqueue])
      ((inHand_own (hown trivial)).trans ?_)
    simp [inHand_iff (hown trivial), hk]
  | pop hq => exact hn ▸ hI.call_pop hk (hown trivial) hq
  | inspectParked hp => exact hI.call_inspect hok hk (hown trivial) hp
  | inspectNone hp => exact absurd hp (hI.parker_of_inspect hok hk (hown trivial))
  | lockParker h => exact hI.call_held hk (hown trivial) (hown trivial) rfl rfl (by simp)
  | notify | wakeIo => exact hI.call_held hk (hown trivial) (hown trivial) rfl rfl (by simp)
  | @release i again =>
    exact hI.call_held hk (hown trivial) (hown trivial) rfl rfl (by cases again <;> simp)
  | unlock =>
    refine hI.call_frame rfl rfl fun i ↦ ?_
    rw [inHand_iff (hown trivial)]
    simp [hk, not_inHand]

/-! ## The steps of a worker -/

/-- A worker touches no other worker's parker, `push` or place in the queue. -/
theorem ParkInv.worker_of (hI : ParkInv n c) (hlock : c.shared.parkedLock ≠ some (.worker i))
    (hlock' : m'.parkedLock = c.shared.parkedLock) (hmap : SyncSlotMap.Inv n m'.parkedWorkers)
    (hparker : ∀ j ≠ i, m'.parker j = c.shared.parker j)
    (hpushing : ∀ j ≠ i, m'.parkedWorkers.pushing j = c.shared.parkedWorkers.pushing j)
    (hqueue : ∀ j ≠ i, j ∈ m'.parkedWorkers.queue ↔ j ∈ c.shared.parkedWorkers.queue)
    (hown : ParkOk ℓ'.base (m'.parkedWorkers.pushing i) (m'.parker i)
      (i ∈ m'.parkedWorkers.queue) (InHand c i)) :
    ParkInv n ⟨m', Function.update c.pc (.worker i) ℓ'⟩ := by
  refine ⟨hmap, fun j ↦ ?_⟩
  by_cases hj : j = i
  · subst hj
    exact Parks.of hown (by simp) rfl rfl Iff.rfl (inHand_frame hlock' hlock)
  · exact Parks.of (hI.parks j) (by simp [hj]) (hpushing j hj) (hparker j hj) (hqueue j hj)
      (inHand_frame hlock' hlock)

/-- A worker steps through its loop outside the parking branch. -/
theorem ParkInv.worker_elsewhere (hI : ParkInv n c)
    (hlock : c.shared.parkedLock ≠ some (.worker i))
    (hlock' : m'.parkedLock = c.shared.parkedLock)
    (hmap : m'.parkedWorkers = c.shared.parkedWorkers) (hparker : m'.parker = c.shared.parker)
    (hb : (c.pc (.worker i)).base ≠ .pushing ∧ (c.pc (.worker i)).base ≠ .park ∧
      (c.pc (.worker i)).base ≠ .wait)
    (hb' : ℓ'.base ≠ .pushing ∧ ℓ'.base ≠ .park ∧ ℓ'.base ≠ .wait) :
    ParkInv n ⟨m', Function.update c.pc (.worker i) ℓ'⟩ := by
  refine hI.worker_of hlock hlock' (hmap ▸ hI.map) (by simp [hparker]) (by simp [hmap])
    (by simp [hmap]) ?_
  rw [hmap, hparker]
  exact (hI.parks i).elsewhere hb hb'

theorem ParkInv.worker (hI : ParkInv n c) (hok : ∀ θ, Ok n θ c.shared (c.pc θ))
    (hk : (c.pc (.worker i)).call = none) (hG : ResumesCleared c (.worker i, a))
    (hmove : WorkerMove i c.shared (c.pc (.worker i)) (c.pc (.worker i)).base a m' ℓ') :
    ParkInv n ⟨m', Function.update c.pc (.worker i) ℓ'⟩ := by
  have hlock : c.shared.parkedLock ≠ some (.worker i) := fun h ↦ by
    obtain ⟨k, hk', -⟩ := (hok (.worker i)).parked.1 h
    simp [hk] at hk'
  have hi := (hok (.worker i)).lt_of_workerMove hmove
  have hclear := (hok (.worker i)).parker_eq_none
  have hparks : ParkOk _ _ _ _ _ := hI.parks i
  generalize hb : (c.pc (.worker i)).base = b at hmove
  rw [hb] at hclear hparks
  cases hmove with
  -- nobody but the worker sets its parker, so it finds itself unparked
  | checkParked hp => simp [hclear id] at hp
  | @push q hp hq =>
    have hfresh := hparks.unlisted id hp
    obtain ⟨-, hqueue, hpushing⟩ := SyncSlotMap.queue_push hq
    have hmap := hI.map.step (a := .push i) ⟨hI.map.cap_eq ▸ hi, hfresh.1⟩ hq
    refine hI.worker_of hlock rfl hmap (by simp) (by simp +contextual [hpushing])
      (by simp [hqueue]) ?_
    rw [hpushing, hqueue]
    exact .of_unlisted (by simp) (by simp) (by simp [PastSwap]) hp hfresh
  | @pushStep q hq =>
    have hmap := hI.map.step (a := .pushStep i) trivial hq
    have hp := hclear id
    rcases hI.map.queue_pushStep hq with
      ⟨hpc, hqueue, hpushing⟩ | ⟨hpc, hqueue, prev, hpushing⟩ | ⟨prev, hpc, hqueue, hpushing⟩
    all_goals
      rw [hpc] at hparks
      refine hI.worker_of hlock rfl hmap (by simp) (by simp +contextual [hpushing])
        (by simp +contextual [hqueue]) ?_
      rw [hpushing, hqueue, Function.update_self]
    · exact .of_unlisted (by simp) (by simp) (by simp [PastSwap]) hp
        (hparks.unlisted (by simp [PastSwap]) hp)
    · -- the swap puts the worker at the end of the queue
      have hnot := (hparks.unlisted (by simp [PastSwap]) hp).2
      exact .of_listed (by simp) (by simp) (Or.inl ⟨by simp, hnot⟩) (Or.inl trivial)
    · exact .of_listed (by simp) (by simp) (hparks.listed (Or.inl trivial)) (Or.inl trivial)
  | park =>
    refine hI.worker_of hlock rfl hI.map (by simp +contextual) (by simp) (by simp) ?_
    exact .of_listed (hparks.pushing.trans (by simp)) (by simp) (hparks.listed (Or.inl trivial))
      (Or.inl trivial)
  | wait =>
    refine hI.worker_of hlock rfl hI.map (by simp) (by simp) (by simp) ?_
    exact .of_listed (hparks.pushing.trans (by simp)) (by simp) (hparks.listed (Or.inl trivial))
      (Or.inr (hparks.wait rfl))
  | unpark =>
    -- by assumption the scheduler has unset the parker, so the worker is listed nowhere
    have hp : c.shared.parker i = none := hG hb
    refine hI.worker_of hlock rfl hI.map (by simp +contextual) (by simp) (by simp) ?_
    exact .of_unlisted (hparks.pushing.trans (by simp)) (by simp) id (by simp)
      (hparks.unlisted id hp)
  | top =>
    exact hI.worker_elsewhere hlock rfl rfl rfl (by simp [hb])
      (of_top (P := fun b ↦ b ≠ .pushing ∧ b ≠ .park ∧ b ≠ .wait) (by simp) (by simp))
  | getGlobal =>
    exact hI.worker_elsewhere hlock rfl rfl rfl (by simp [hb])
      (of_getGlobal (P := fun b ↦ b ≠ .pushing ∧ b ≠ .park ∧ b ≠ .wait) (by simp) (by simp))
  | runningLocal | eventsLocal | runningGlobal | eventsGlobal =>
    exact hI.worker_elsewhere hlock rfl rfl rfl (by simp [hb]) (by simp [hb])
  | _ => exact hI.worker_elsewhere hlock rfl rfl rfl (by simp [hb]) (by simp)

theorem parkInv_of_reachableUnder {capacity : ℕ}
    (h : (machine n capacity).ReachableUnder ResumesCleared c) : ParkInv n c := by
  refine System.invariant h ?_ fun c θ a m ℓ hc hI hG hs ↦ ?_
  · rintro _ rfl
    refine ⟨SyncSlotMap.Inv.new n, fun i ↦ ?_⟩
    have hhand : ¬InHand (State.new n capacity) i := not_inHand rfl
    have hqueue : i ∉ (State.new n capacity).shared.parkedWorkers.queue := by
      simp [State.new, Shared.new, SyncSlotMap.State.new, SyncSlotMap.State.queue]
    have hbase : ((State.new n capacity).pc (.worker i)).base = .top ∨
        ((State.new n capacity).pc (.worker i)).base = .outside := by
      by_cases hi : i < n <;> simp [State.new, Local.new, hi]
    refine ParkOk.of_unlisted ?_ ?_ ?_ rfl ⟨hqueue, hhand⟩
    · refine iff_of_false (fun hpc ↦ hpc rfl) ?_
      rcases hbase with h | h <;> simp [h]
    · rcases hbase with h | h <;> simp [h]
    · rcases hbase with h | h <;> simp [h, PastSwap]
  obtain ⟨hn, hok⟩ := ok_of_reachableUnder hc
  cases move_of_step hs with
  | call hk hmove => exact hI.call hn hok hk hmove
  | @enter k t _ _ hk =>
    refine hI.call_frame rfl rfl fun i ↦ inHand_frame rfl fun h ↦ ?_
    obtain ⟨k', hk', -⟩ := (hok (.other k)).parked.1 h
    simp [hk] at hk'
  | worker hk hmove => exact hI.worker hok hk hG hmove

/-! ## The protocol -/

/-- What the protocol promises of worker `i`. -/
structure Protocol (c : State) (i : ℕ) : Prop where
  /-- Where the worker is about to call `push(i)`, its index is not in the queue. -/
  fresh : (c.pc (.worker i)).base = .checkParker → c.shared.parker i = none →
    i ∉ c.shared.parkedWorkers.queue
  /-- A parked worker is in the queue exactly once, or in the hand of a scheduler. -/
  reachable : (c.pc (.worker i)).base = .waiting → c.shared.parker i = some .parked →
    (c.shared.parkedWorkers.queue.count i = 1 ∧ ¬InHand c i) ∨
      (i ∉ c.shared.parkedWorkers.queue ∧ InHand c i)

/-- **The parking protocol** holds in every run in which no worker unsets a parker that is still
set. -/
theorem protocol_of_reachableUnder (n capacity : ℕ) (c : State)
    (h : (machine n capacity).ReachableUnder ResumesCleared c) (i : ℕ) : Protocol c i := by
  have hI := parkInv_of_reachableUnder h
  refine ⟨fun hb hp ↦ ?_, fun hb hp ↦ ?_⟩
  · exact ((hI.parks i).unlisted (by simp [hb, PastSwap]) hp).1
  · refine ((hI.parks i).listed (.inr hp)).imp_left fun hq ↦ ⟨?_, hq.2⟩
    exact List.count_eq_one_of_mem hI.map.nodup_queue hq.1

/-! ## A spurious return -/

/-- A worker steps that many times. -/
def steps (i k : ℕ) : List (Thread × Label) := List.replicate k (.worker i, .step)

/-- Worker 0 polls the driver; worker 1 parks, returns spuriously, and is about to push again. -/
def spuriousReturn : State :=
  ((machine 2 32).exec (.new 2 32)
    (steps 0 3 ++ steps 1 10 ++ [(.worker 1, .spurious)] ++ steps 1 7)).get (by decide)

/-- After a spurious return a worker calls `push` with its index in the queue. -/
theorem not_fresh_spuriousReturn : ¬∀ (n capacity : ℕ) (c : State),
    (machine n capacity).Reachable c → ∀ i, Protocol c i := by
  intro h
  have hexec : (machine 2 32).exec (.new 2 32) _ = some spuriousReturn := (Option.some_get _).symm
  exact (h 2 32 _ (.of_exec (.init rfl) hexec) 1).fresh (by decide) (by decide) (by decide)

/-- Worker 0 polls the driver; worker 1 parks, is popped and notified, runs a task and parks
again. -/
def parksAgain : State :=
  ((machine 2 32).exec (.new 2 32) (steps 0 3 ++ steps 1 10 ++
    (.other 0, .scheduleGlobal 0) :: List.replicate 17 (.other 0, .step) ++ steps 1 17)).get
    (by decide)

theorem protocol_parksAgain : (machine 2 32).ReachableUnder ResumesCleared parksAgain ∧
    (parksAgain.pc (.worker 1)).base = .waiting ∧ parksAgain.shared.parker 1 = some .parked ∧
    parksAgain.shared.parkedWorkers.swaps = [1, 1] ∧ Protocol parksAgain 1 := by
  have hexec : (machine 2 32).exec (.new 2 32) _ = some parksAgain := (Option.some_get _).symm
  have hr := Machine.ReachableUnder.of_exec (G := ResumesCleared) (.init rfl) (by decide) hexec
  exact ⟨hr, by decide, by decide, by decide, protocol_of_reachableUnder 2 32 _ hr 1⟩

end ArcDischarge.Runtime
