import ArcDischarge.Retry.Charges

/-!
# How a call ends

The result of a call is what its operation has returned last, and never `WouldBlock`; or it is
`Pending`, and then its waker is in the slot of its direction, where the call has put it after its
last clear. Together with the balance of the call this is the bound on the retries: at most one try
more than the driver has applied events, and a return within a number of steps that the exchanges on
the word determine.
-/

namespace ArcDischarge.Retry

open Io (Agent Captured Coherent Direction Entry Interest Ready Shared)

variable {ε R : Type*} {interest : ℕ → Interest} {wouldBlock : ε → Bool} {gone : ε}
  {m m' : Shared} {i : Agent} {p p' : Pc ε R} {a : Label ε R} {k n : ℕ} {call : Call ε R}
  {phase : Phase R} {c d : State ε R}

/-- After the store of the waker, before the release of the lock. -/
def Phase.hasStored : Phase R → Bool
  | .polling (.callRecheck _) | .polling (.callUnlock _) => true
  | _ => false

/-- The history of a call so far. -/
structure Recorded (m : Shared) (call : Call ε R) (phase : Phase R) : Prop where
  slot : phase.hasStored = true → m.slot call.loop.direction = some call.waker
  stored : phase.hasStored = true → call.did.getLast? = some (.stored call.waker)
  result : ∀ q ret, phase = .clearing q (some ret) → call.results.getLast? = some (.ok ret)

/-- What a call returns is what its history says: `Pending` with its waker in the slot, put there
after everything else, or the last result of its operation, which is not `WouldBlock`. -/
def Return.Of (wouldBlock : ε → Bool) (call : Call ε R) : Return ε R → Prop
  | .pending slot => slot = some call.waker ∧ call.did.getLast? = some (.stored call.waker)
  | .ready result => call.results.getLast? = some result ∧
      ∀ e, result = .error e → wouldBlock e = false

def Pc.Recorded (wouldBlock : ε → Bool) (m : Shared) : Pc ε R → Prop
  | .io _ => True
  | .call c phase => Retry.Recorded m c phase
  | .returned c ret => ret.Of wouldBlock c

theorem Recorded.of_not (hstored : phase.hasStored = false)
    (hresult : ∀ q ret, phase ≠ .clearing q (some ret)) : Recorded m call phase where
  slot h := by
    rw [hstored] at h
    cases h
  stored h := by
    rw [hstored] at h
    cases h
  result q ret h := absurd h (hresult q ret)

/-- Steps that leave the history alone. -/
theorem Recorded.after_nil
    (hslot : phase.hasStored = true → m.slot call.loop.direction = some call.waker)
    (hstored : phase.hasStored = true → call.did.getLast? = some (.stored call.waker))
    (hresult : ∀ q ret, phase = .clearing q (some ret) → call.results.getLast? = some (.ok ret)) :
    Recorded m (call.after []) phase := by
  refine ⟨hslot, fun h ↦ ?_, fun q ret h ↦ ?_⟩
  · rw [Call.after, List.append_nil]
    exact hstored h
  · rw [Call.results, Call.after, List.append_nil]
    exact hresult q ret h

theorem getLast?_results_called (r : Except ε R) :
    (call.after [.called r]).results.getLast? = some r := by
  rw [Call.results, Call.after, List.filterMap_append]
  exact List.getLast?_concat

theorem getLast?_results_cleared :
    (call.after [.cleared]).results.getLast? = call.results.getLast? := by
  rw [Call.results, Call.after, List.filterMap_append]
  exact congrArg List.getLast? (List.append_nil _)

theorem recorded_cleared {result : Option R}
    (h : ∀ ret, result = some ret → call.results.getLast? = some (.ok ret)) :
    (cleared (call.after [.cleared]) result).Recorded wouldBlock m := by
  cases result with
  | none => exact Recorded.of_not rfl fun _ _ heq ↦ by cases heq
  | some ret => exact ⟨getLast?_results_cleared.trans (h ret rfl), fun e he ↦ by cases he⟩

theorem CallMove.recorded (hmove : CallMove wouldBlock k m call phase a m' p')
    (h : Recorded m call phase) : p'.Recorded wouldBlock m' := by
  cases hmove with
  | load | loadReady | lock | unlockReady | wouldBlock =>
    exact Recorded.of_not rfl fun _ _ heq ↦ by cases heq
  | store =>
    refine ⟨fun _ ↦ Function.update_self _ _ _, fun _ ↦ List.getLast?_concat, fun _ _ heq ↦ ?_⟩
    cases heq
  | recheck | recheckReady =>
    exact Recorded.after_nil h.slot h.stored fun _ _ heq ↦ by cases heq
  | unlock =>
    refine ⟨h.slot rfl, ?_⟩
    rw [Call.after, List.append_nil]
    exact h.stored rfl
  | clearsAfter =>
    refine ⟨fun heq ↦ (by cases heq), fun heq ↦ (by cases heq), fun _ _ heq ↦ ?_⟩
    cases heq
    exact getLast?_results_called _
  | tried hfinal => exact ⟨getLast?_results_called _, hfinal⟩
  | clearLoad | clearRetry =>
    refine Recorded.after_nil (fun heq ↦ by cases heq) (fun heq ↦ by cases heq) fun _ _ heq ↦ ?_
    cases heq
    exact h.result _ _ rfl
  | clearOld | clear =>
    refine recorded_cleared fun ret hret ↦ ?_
    subst hret
    exact h.result _ ret rfl

/-! ## The invariant -/

/-- What is true of every call and of its return. -/
structure Good (wouldBlock : ε → Bool) (m : Shared) (p : Pc ε R) : Prop where
  seen : p.Seen m
  balanced : p.Balanced m
  recorded : p.Recorded wouldBlock m

theorem good_start (loop : Loop R) (waker : Io.Waker) :
    Good wouldBlock m (.call (⟨loop, waker, m.log.length, [], 0⟩ : Call ε R)
      (.polling (.callLoad loop.direction waker))) where
  seen := .of_none rfl
  balanced call hcall := by
    cases hcall
    have hone : behind m (⟨loop, waker, m.log.length, [], 0⟩ : Call ε R)
        (.polling (.callLoad loop.direction waker)) ≤ 1 := behind_le_one
    refine ⟨Nat.le_refl _, ?_, ?_⟩
    · change 0 + (0 + behind m _ _) ≤ 1 + _
      omega
    · change 0 + (5 + 8 * behind m _ _ + 0) ≤ 13 + 8 * _ + _
      omega
  recorded := .of_not rfl fun _ _ heq ↦ by cases heq

theorem good_io (b : Io.Pc) : Good wouldBlock m (.io b : Pc ε R) where
  seen := trivial
  balanced call hcall := by cases hcall
  recorded := trivial

theorem Move.good (hmove : Move interest wouldBlock m i p a m' p') (hm : Coherent m)
    (hm' : Coherent m') (hok : Io.Ok i m p.inner)
    (hfinal : ∀ e, a = .result (.error e) → ∀ d ∈ p.trying?,
      isClosed m.word.readiness d = true → wouldBlock e = false)
    (h : Good wouldBlock m p) : Good wouldBlock m' p' := by
  cases hmove with
  | io | leave => exact good_io _
  | start => exact good_start _ _
  | call hcall =>
    refine ⟨hcall.seen hm hok h.seen ?_, hcall.balanced hm hm' h.seen h.balanced,
      hcall.recorded h.recorded⟩
    -- by assumption no operation blocks on a direction that is closed
    rintro captured e rfl rfl hblock hclosed
    have hopen := hfinal e rfl _ rfl (isClosed_iff.mpr hclosed)
    rw [hblock] at hopen
    cases hopen

/-- Nobody else touches the slot of a call that has the lock. -/
theorem Recorded.other (h : Recorded m call phase)
    (hslot : phase.hasStored = true → m'.slot = m.slot) : Recorded m' call phase :=
  ⟨fun hstored ↦ by rw [hslot hstored]; exact h.slot hstored, h.stored, h.result⟩

theorem locks_of_hasStored (h : phase.hasStored = true) :
    (Pc.call call phase).inner.locks := by
  unfold Phase.hasStored at h
  split at h
  · trivial
  · trivial
  · cases h

theorem Move.good_other {j : Agent} {q : Pc ε R} (hmove : Move interest wouldBlock m i p a m' p')
    (hj : j ≠ i) (hm : Coherent m) (hm' : Coherent m') (hi : Sound i m p) (hq : Sound j m q)
    (h : Good wouldBlock m q) : Good wouldBlock m' q := by
  cases q with
  | io b => exact good_io b
  | returned call ret =>
    -- the bounds only grow with the log
    refine ⟨trivial, fun call' hcall ↦ ?_, h.recorded⟩
    cases hcall
    obtain ⟨hsince, hcalls, hsteps⟩ := h.balanced call rfl
    have hlen := hmove.exchange.length_le
    have hevents := hmove.exchange.eventsSince_le hsince
    exact ⟨by omega, Nat.le_trans hcalls (by omega), Nat.le_trans hsteps (by omega)⟩
  | call call phase =>
    have hle (captured : Captured) (hcaptured : phase.captured? = some captured) :
        captured.since ≤ m.log.length :=
      (hq.ok.captured captured (Phase.inner_captured? hcaptured)).le
    refine ⟨Seen.other h.seen hmove.exchange hm hm' hle, fun call' hcall ↦ ?_,
      Recorded.other h.recorded fun hstored ↦ hmove.slot.resolve_right fun hlocks ↦ hj ?_⟩
    · cases hcall
      exact (h.balanced call rfl).other hmove.exchange hm hm' hle
    · -- both would have the lock
      have hlock := hq.locks.mp (locks_of_hasStored hstored)
      rw [hi.locks.mp hlocks] at hlock
      exact (Option.some.inj hlock).symm

theorem good_of_reachableUnder
    (h : (machine interest wouldBlock gone).ReachableUnder (FinalWhenClosed wouldBlock) c)
    (i : Agent) : Good wouldBlock c.shared (c.pc i) := by
  refine (System.holds_of_reachableUnder (J := fun _ ↦ True)
    (I := fun _ m p ↦ Good wouldBlock m p) h ?_ ?_ ?_).2 i
  · rintro _ ⟨s, -, rfl⟩
    exact ⟨trivial, fun _ ↦ good_io _⟩
  · intro c i a m p hc hI hG hstep
    have hsound := sound_of_reachableUnder hc
    have hmove := move_of_step hsound.1.word.isShutdown (hsound.2 i).fits hstep
    refine ⟨trivial, hmove.good hsound.1 (hmove.coherent hsound.1 (hsound.2 i).ok)
      (hsound.2 i).ok ?_ (hI.2 i)⟩
    rintro e rfl
    exact hG
  · intro c i a m p hc hI hG hstep j hj
    have hsound := sound_of_reachableUnder hc
    have hmove := move_of_step hsound.1.word.isShutdown (hsound.2 i).fits hstep
    exact hmove.good_other hj hsound.1 (hmove.coherent hsound.1 (hsound.2 i).ok) (hsound.2 i)
      (hsound.2 j) (hI.2 j)

/-! ## A call on its own -/

/-- Nobody but thread `k` has the lock of the waiters. -/
def Unlocked (k : ℕ) (m : Shared) : Prop := ∀ j, m.lock = some j → j = .thread k

theorem left_add_stale_le : phase.left + stale m phase ≤ 9 := by
  unfold stale
  split
  · rw [Phase.left]
    split <;> omega
  · unfold Phase.left
    split <;> omega

theorem cost_le : cost m call phase ≤ 17 := by
  have hbehind : behind m call phase ≤ 1 := behind_le_one
  have hleft : phase.left + stale m phase ≤ 9 := left_add_stale_le
  rw [cost]
  omega

/-- A call that has not returned has a step to make, unless it waits for the lock. -/
theorem exists_step (interest : ℕ → Interest) (wouldBlock : ε → Bool) (gone : ε)
    (hsound : Sound (.thread k) m (.call call phase)) (hlock : Unlocked k m) (r : Except ε R) :
    ∃ a m' p', (Pc.call call phase).next r = some a ∧
      step interest wouldBlock gone (.thread k) m (.call call phase) a = some (m', p') := by
  cases phase with
  | trying captured => exact ⟨_, _, _, rfl, rfl⟩
  | clearing q result =>
    have hsome : (clearStep k m call q result).isSome = true := isSome_clearStep hsound.fits
    obtain ⟨⟨m', p'⟩, hstep⟩ := Option.isSome_iff_exists.mp hsome
    exact ⟨_, m', p', rfl, hstep⟩
  | polling q =>
    have hfree (d : Direction) (waker : Io.Waker) (hq : q = .callLock d waker) :
        m.lock = none := by
      cases hheld : m.lock with
      | none => rfl
      | some j =>
        rw [hlock j hheld] at hheld
        have hlocks := hsound.locks.mpr hheld
        rw [hq] at hlocks
        exact hlocks.elim
    obtain ⟨⟨m', p'⟩, hstep⟩ := Option.isSome_iff_exists.mp (isSome_pollStep hsound.fits hfree)
    exact ⟨_, m', p', rfl, hstep⟩

theorem left_pos (h : phase.Fits call) : 0 < phase.left := by
  unfold Phase.Fits at h
  split at h
  · exact Nat.zero_lt_succ 4
  · exact Nat.zero_lt_succ 3
  · exact Nat.zero_lt_succ 2
  · exact Nat.zero_lt_succ 1
  · rename_i captured
    cases captured with
    | none => exact Nat.zero_lt_succ 0
    | some captured => exact Nat.zero_lt_succ 8
  · exact Nat.zero_lt_succ 7
  · exact Nat.zero_lt_succ 6
  · exact Nat.zero_lt_succ 5
  · exact h.elim

theorem Unlocked.move (h : Unlocked k m)
    (hmove : Move interest wouldBlock m (.thread k) p a m' p') : Unlocked k m' := by
  intro j hj
  cases hmove.lockStep with
  | keep heq => exact h j (heq ▸ hj)
  | acquire _ h' =>
    rw [h'] at hj
    exact (Option.some.inj hj).symm
  | release _ h' =>
    rw [h'] at hj
    cases hj

/-- A step of the call sets no bit. -/
theorem CallMove.mem_of_mem (hmove : CallMove wouldBlock k m call phase a m' p') (hm : Coherent m)
    (hm' : Coherent m') {b : ℕ} (hb : b ∈ m'.word.readiness) : b ∈ m.word.readiness :=
  hmove.exchange.mem_of_mem hm hm' (Nat.le_refl m.log.length)
    ((hmove.eventsSince_eq (Nat.le_refl _)).trans (eventsSince_length m.log)) hb

theorem alone_of_returned {ret : Return ε R} {results : ℕ → Except ε R} (n : ℕ)
    (hpc : c.pc (.thread k) = .returned call ret) :
    alone interest wouldBlock gone k results n c = some c := by
  cases n with
  | zero => rfl
  | succ n =>
    rw [alone, hpc]
    rfl

/-- The assumption on the operation, for a step of a call by itself. -/
theorem finalWhenClosed_next {r : Except ε R} (hpc : c.pc (.thread k) = .call call phase)
    (hr : ∀ e, r = .error e → isClosed c.shared.word.readiness call.loop.direction = true →
      wouldBlock e = false)
    (hnext : (Pc.call call phase).next r = some a) :
    FinalWhenClosed wouldBlock c (.thread k, a) := by
  cases phase with
  | trying captured =>
    cases hnext
    cases r with
    | ok ret => trivial
    | error e =>
      intro d hd
      rw [hpc] at hd
      cases hd
      exact hr e rfl
  | polling q | clearing q result =>
    cases hnext
    trivial

/-- Left alone, a call returns before it has made as many steps as it costs. -/
theorem exists_alone {results : ℕ → Except ε R} (n : ℕ)
    (hc : (machine interest wouldBlock gone).ReachableUnder (FinalWhenClosed wouldBlock) c)
    (hpc : c.pc (.thread k) = .call call phase) (hlock : Unlocked k c.shared)
    (hresults : ∀ n e, results n = .error e →
      isClosed c.shared.word.readiness call.loop.direction = true → wouldBlock e = false)
    (hcost : cost c.shared call phase ≤ n) :
    ∃ d call' ret, alone interest wouldBlock gone k results n c = some d ∧
      (machine interest wouldBlock gone).ReachableUnder (FinalWhenClosed wouldBlock) d ∧
      d.pc (.thread k) = .returned call' ret ∧ call'.loop = call.loop ∧
      call'.waker = call.waker := by
  induction n generalizing c call phase with
  | zero =>
    have hfits : phase.Fits call := (sound_of_reachableUnder hc).agent hpc |>.fits
    have hleft := left_pos hfits
    rw [cost] at hcost
    omega
  | succ n ih =>
    have hsound := sound_of_reachableUnder hc
    have hthread := hsound.agent hpc
    obtain ⟨a, m', p', hnext, hstep⟩ :=
      exists_step interest wouldBlock gone hthread hlock (results n)
    have hmachine : (machine interest wouldBlock gone).step c (.thread k, a) =
        some ⟨m', Function.update c.pc (.thread k) p'⟩ :=
      System.machine_step_eq_some.mpr ⟨m', p', hpc ▸ hstep, rfl⟩
    have hd := hc.step (finalWhenClosed_next hpc (hresults n) hnext) hmachine
    have halone : alone interest wouldBlock gone k results (n + 1) c =
        alone interest wouldBlock gone k results n ⟨m', Function.update c.pc (.thread k) p'⟩ := by
      rw [alone, hpc, hnext]
      dsimp only
      rw [hmachine]
      rfl
    rw [halone]
    have hmove : Move interest wouldBlock c.shared (.thread k) (.call call phase) a m' p' :=
      move_of_step hsound.1.word.isShutdown hthread.fits hstep
    have hlock' := hlock.move hmove
    have hm' := hmove.coherent hsound.1 hthread.ok
    cases hmove with
    | call hcall =>
      have hgood : Good wouldBlock c.shared (.call call phase) :=
        hpc ▸ good_of_reachableUnder hc (.thread k)
      obtain ⟨did, hafter, -, hspent⟩ := hcall.spends hsound.1 hm' hgood.seen
      cases p' with
      | io => cases hafter
      | returned call' ret =>
        cases hafter
        have hpc' : (⟨m', Function.update c.pc (.thread k) (.returned (call.after did) ret)⟩ :
            State ε R).pc (.thread k) = .returned (call.after did) ret := Function.update_self _ _ _
        exact ⟨_, _, ret, alone_of_returned n hpc', hd, hpc', rfl, rfl⟩
      | call call' phase' =>
        cases hafter
        -- the call itself has not closed its direction
        have hresults' (n : ℕ) (e : ε) (he : results n = .error e)
            (hclosed : isClosed m'.word.readiness call.loop.direction = true) :
            wouldBlock e = false :=
          hresults n e he
            (isClosed_iff.mpr (hcall.mem_of_mem hsound.1 hm' (isClosed_iff.mp hclosed)))
        have hreturns := ih hd (Function.update_self _ _ _) hlock' hresults'
          (Nat.le_of_lt_succ (Nat.lt_of_lt_of_le hspent hcost))
        exact hreturns

/-! ## The bound -/

/-- **The retries of a call are bounded by the driver's events.** In every state reached with an
operating system whose operations are final once their direction is closed, a call of any of the
loops has tried its operation at most once more often than events have been applied since it began,
and has made no more steps than the exchanges on the word since then allow. Unless somebody else has
the lock, it returns within 17 steps of its own, whatever the operation returns. What it returns is
`Pending`, with its waker in the slot of the direction, stored after its last clear; or the last
result of its operation, which is not `WouldBlock`. -/
theorem retries_bounded (interest : ℕ → Interest) (wouldBlock : ε → Bool) (gone : ε)
    (c : State ε R) (k : ℕ) (call : Call ε R)
    (h : (machine interest wouldBlock gone).ReachableUnder (FinalWhenClosed wouldBlock) c)
    (hcall : (c.pc (.thread k)).call? = some call) :
    call.results.length ≤ 1 + eventsSince call.since c.shared.log ∧
      call.steps ≤ 13 + 8 * eventsSince call.since c.shared.log +
        (c.shared.log.length - call.since) ∧
      (∀ phase, c.pc (.thread k) = .call call phase → Unlocked k c.shared →
        ∀ results : ℕ → Except ε R,
          (∀ n e, results n = .error e →
            isClosed c.shared.word.readiness call.loop.direction = true → wouldBlock e = false) →
          ∃ d call' ret, alone interest wouldBlock gone k results 17 c = some d ∧
            d.pc (.thread k) = .returned call' ret ∧ call'.loop = call.loop ∧
            call'.waker = call.waker ∧ ret.Of wouldBlock call') ∧
      ∀ ret, c.pc (.thread k) = .returned call ret → ret.Of wouldBlock call := by
  have hgood := good_of_reachableUnder h (.thread k)
  obtain ⟨-, hcalls, hsteps⟩ := hgood.balanced call hcall
  refine ⟨by omega, by omega, fun phase hpc hlock results hresults ↦ ?_, fun ret hpc ↦ ?_⟩
  · obtain ⟨d, call', ret, halone, hd, hret, hloop, hwaker⟩ :=
      exists_alone 17 h hpc hlock hresults cost_le
    have hrecorded := (good_of_reachableUnder hd (.thread k)).recorded
    rw [hret] at hrecorded
    exact ⟨d, call', ret, halone, hret, hloop, hwaker, hrecorded⟩
  · have hrecorded := hgood.recorded
    rw [hpc] at hrecorded
    exact hrecorded

/-! ## Runs with a retry -/

def writable : Io.Event := ⟨false, true, false, false⟩

/-- Thread 0 writes 10 bytes on a slot that has become writable, and is told `WouldBlock`. Another
event comes before its clear, which is turned away; the second try writes 3 bytes. -/
def retryRun : List (Agent × Label Bool ℕ) :=
  ((Io.eventTurn writable 0 0).map fun a ↦ (a.1, .io a.2)) ++
    [(.thread 0, .call (pollWrite false 10) 7), (.thread 0, .step),
      (.thread 0, .result (.error true)), (.thread 0, .step)] ++
    ((Io.eventTurn writable 0 0).map fun a ↦ (a.1, .io a.2)) ++
    [(.thread 0, .step), (.thread 0, .step), (.thread 0, .step), (.thread 0, .result (.ok 3)),
      (.thread 0, .step), (.thread 0, .step)]

/-- An error is `true` for `WouldBlock`. -/
abbrev retryMachine : Machine (State Bool ℕ) (Agent × Label Bool ℕ) :=
  machine (fun _ ↦ .READABLE) id false

def retried : State Bool ℕ :=
  (retryMachine.exec (.ofIo (.new 0#64 (fun _ ↦ none) 0)) retryRun).get (by decide +kernel)

def retriedCall : Call Bool ℕ := (retried.pc (.thread 0)).call?.get (by decide +kernel)

theorem retries_bounded_retried : retriedCall.results = [.error true, .ok 3] ∧
    eventsSince retriedCall.since retried.shared.log = 1 ∧
    retriedCall.results.length ≤ 1 + eventsSince retriedCall.since retried.shared.log :=
  ⟨by decide +kernel, by decide +kernel,
    (retries_bounded (fun _ ↦ .READABLE) id false retried 0 retriedCall
      ((reachableUnder_new _ _).of_isSome_exec _ (by decide +kernel) _)
      (Option.some_get _).symm).1⟩

/-- A peek that is told `WouldBlock` clears the readiness, polls again and leaves its waker. -/
example : (retryMachine.exec (.ofIo (.new 0#64 (fun _ ↦ none) 0))
    (((Io.eventTurn Io.readable 0 0).map fun a ↦ (a.1, .io a.2)) ++
      [(.thread 0, .call pollPeek 7), (.thread 0, .step), (.thread 0, .result (.error true))] ++
      List.replicate 7 (.thread 0, .step))).map (fun c ↦ c.shared.slot .read) = some (some 7) := by
  decide +kernel

end ArcDischarge.Retry
