import ArcDischarge.Io.Moves
import ArcDischarge.Retry.Model

/-!
# What a step of a call can do

The step function inverted once. `CallMove` has one constructor for each branch of the loop and of
the `poll_readiness` and `clear_readiness` in it, with its condition; it leaves out the branches for
a slot that is shut down, since the flag is never set. `Move` adds the steps of everybody else.
-/

namespace ArcDischarge.Retry

open Io (Agent Captured Direction Interest Ready Shared Word)

variable {ε R : Type*}

/-- The readiness that a call waits for. -/
def Call.ready (call : Call ε R) (m : Shared) : Ready :=
  call.loop.direction.mask &&& m.word.readiness

theorem ready_eq (call : Call ε R) (m : Shared) :
    call.loop.direction.mask &&& m.word.readiness = call.ready m := rfl

/-- The points of `poll_readiness` and `clear_readiness` that a call can be at. -/
def Phase.Fits (call : Call ε R) : Phase R → Prop
  | .polling (.callLoad d waker) | .polling (.callLock d waker) | .polling (.store d waker) =>
    d = call.loop.direction ∧ waker = call.waker
  | .polling (.callRecheck d) => d = call.loop.direction
  | .polling (.callUnlock captured) => ∀ x ∈ captured, x.event.isShutdown = false
  | .trying captured => captured.event.isShutdown = false
  | .clearing (.clearLoad _) _ | .clearing (.clearExchange _ _) _ => True
  | _ => False

inductive CallMove (wouldBlock : ε → Bool) (k : ℕ) (m : Shared) (call : Call ε R) :
    Phase R → Label ε R → Shared → Pc ε R → Prop where
  | load (h : (call.ready m).isEmpty = true) :
      CallMove wouldBlock k m call (.polling (.callLoad call.loop.direction call.waker)) .step m
        (.call (call.after []) (.polling (.callLock call.loop.direction call.waker)))
  | loadReady (h : (call.ready m).isEmpty = false) :
      CallMove wouldBlock k m call (.polling (.callLoad call.loop.direction call.waker)) .step m
        (.call (call.after []) (.trying (m.capture (call.ready m))))
  | lock (h : m.lock = none) :
      CallMove wouldBlock k m call (.polling (.callLock call.loop.direction call.waker)) .step
        { m with lock := some (.thread k) }
        (.call (call.after []) (.polling (.store call.loop.direction call.waker)))
  | store {caller : Direction → Option Io.Caller} :
      CallMove wouldBlock k m call (.polling (.store call.loop.direction call.waker)) .step
        { m with slot := Function.update m.slot call.loop.direction (some call.waker)
                 caller := caller }
        (.call (call.after [.stored call.waker]) (.polling (.callRecheck call.loop.direction)))
  | recheck {caller : Direction → Option Io.Caller} (h : (call.ready m).isEmpty = true) :
      CallMove wouldBlock k m call (.polling (.callRecheck call.loop.direction)) .step
        { m with caller := caller } (.call (call.after []) (.polling (.callUnlock none)))
  | recheckReady (h : (call.ready m).isEmpty = false) :
      CallMove wouldBlock k m call (.polling (.callRecheck call.loop.direction)) .step m
        (.call (call.after []) (.polling (.callUnlock (some (m.capture (call.ready m))))))
  | unlock : CallMove wouldBlock k m call (.polling (.callUnlock none)) .step
      { m with lock := none } (.returned (call.after []) (.pending (m.slot call.loop.direction)))
  | unlockReady {captured : Captured} :
      CallMove wouldBlock k m call (.polling (.callUnlock (some captured))) .step
        { m with lock := none } (.call (call.after []) (.trying captured))
  | wouldBlock {captured : Captured} {e : ε} (h : wouldBlock e = true) :
      CallMove wouldBlock k m call (.trying captured) (.result (.error e)) m
        (.call (call.after [.called (.error e)]) (.clearing (.clearLoad captured) none))
  | clearsAfter {captured : Captured} {ret : R} :
      CallMove wouldBlock k m call (.trying captured) (.result (.ok ret)) m
        (.call (call.after [.called (.ok ret)]) (.clearing (.clearLoad captured) (some ret)))
  | tried {captured : Captured} {r : Except ε R} (h : ∀ e, r = .error e → wouldBlock e = false) :
      CallMove wouldBlock k m call (.trying captured) (.result r) m
        (.returned (call.after [.called r]) (.ready r))
  | clearLoad {captured : Captured} {result : Option R} :
      CallMove wouldBlock k m call (.clearing (.clearLoad captured) result) .step m
        (.call (call.after []) (.clearing (.clearExchange captured m.word) result))
  | clearOld {captured : Captured} {current : Word} {result : Option R}
      (h : current.tick ≠ captured.event.tick) :
      CallMove wouldBlock k m call (.clearing (.clearExchange captured current) result) .step m
        (cleared (call.after [.cleared]) result)
  | clear {captured : Captured} {next : Word} {result : Option R}
      (h : Io.pass (.clear captured.event.tick) (· - captured.event.maskNoClosed) m.word =
        some (some next)) :
      CallMove wouldBlock k m call (.clearing (.clearExchange captured m.word) result) .step
        { m with word := next, log := m.log ++ [.clear captured.event.maskNoClosed] }
        (cleared (call.after [.cleared]) result)
  | clearRetry {captured : Captured} {current : Word} {result : Option R}
      (h : m.word ≠ current) :
      CallMove wouldBlock k m call (.clearing (.clearExchange captured current) result) .step m
        (.call (call.after []) (.clearing (.clearExchange captured m.word) result))

inductive Move (interest : ℕ → Interest) (wouldBlock : ε → Bool) (m : Shared) :
    Agent → Pc ε R → Label ε R → Shared → Pc ε R → Prop where
  | io {i : Agent} {p p' : Io.Pc} {a : Io.Label} {m' : Shared}
      (h : Io.Move interest m i p a m' p') :
      Move interest wouldBlock m i (.io p) (.io a) m' (.io p')
  | start {k : ℕ} {loop : Loop R} {waker : Io.Waker} :
      Move interest wouldBlock m (.thread k) (.io .idle) (.call loop waker) m
        (.call ⟨loop, waker, m.log.length, [], 0⟩ (.polling (.callLoad loop.direction waker)))
  | call {k : ℕ} {call : Call ε R} {phase : Phase R} {a : Label ε R} {m' : Shared}
      {p' : Pc ε R} (h : CallMove wouldBlock k m call phase a m' p') :
      Move interest wouldBlock m (.thread k) (.call call phase) a m' p'
  | leave {k : ℕ} {call : Call ε R} {ret : Return ε R} :
      Move interest wouldBlock m (.thread k) (.returned call ret) .step m (.io .idle)

variable {interest : ℕ → Interest} {wouldBlock : ε → Bool} {gone : ε} {m m' : Shared} {k : ℕ}
  {call : Call ε R} {p p' : Pc ε R} {q : Io.Pc}

theorem callMove_of_pollStep (hshut : m.word.isShutdown = false)
    (hfits : (Phase.polling q).Fits call) (h : pollStep gone k m call q = some (m', p')) :
    CallMove wouldBlock k m call (.polling q) .step m' p' := by
  unfold pollStep at h
  cases q with
  | callLoad d waker =>
    obtain ⟨rfl, rfl⟩ := hfits
    cases hempty : (call.ready m).isEmpty with
    | true =>
      simp only [Io.threadStep, ready_eq, hempty, hshut, Bool.not_false, Bool.and_self,
        if_true] at h
      cases h
      exact .load hempty
    | false =>
      simp only [Io.threadStep, ready_eq, hempty, Bool.false_and, Bool.false_eq_true, if_false,
        List.drop_left] at h
      rw [Io.ReadyEvent.orGone, if_neg (by simp [Shared.capture, hshut])] at h
      cases h
      exact .loadReady hempty
  | callLock d waker =>
    obtain ⟨rfl, rfl⟩ := hfits
    cases hlock : m.lock with
    | none =>
      simp only [Io.threadStep, hlock] at h
      cases h
      exact .lock hlock
    | some j =>
      simp only [Io.threadStep, hlock] at h
      cases h
  | store d waker =>
    obtain ⟨rfl, rfl⟩ := hfits
    simp only [Io.threadStep, Io.slot_store] at h
    cases h
    exact .store
  | callRecheck d =>
    obtain rfl := hfits
    cases hempty : (call.ready m).isEmpty with
    | true =>
      simp only [Io.threadStep, ready_eq, hshut, hempty, Bool.false_eq_true, if_false, if_true] at h
      cases h
      exact .recheck hempty
    | false =>
      simp only [Io.threadStep, ready_eq, hshut, hempty, Bool.false_eq_true, if_false] at h
      cases h
      exact .recheckReady hempty
  | callUnlock captured =>
    cases captured with
    | none =>
      simp only [Io.threadStep, Option.toList_none, List.append_nil, List.drop_length] at h
      cases h
      exact .unlock
    | some captured =>
      have hnot : captured.event.isShutdown = false := hfits captured rfl
      simp only [Io.threadStep, Option.toList_some, List.drop_left] at h
      rw [Io.ReadyEvent.orGone, if_neg (by simp [hnot])] at h
      cases h
      exact .unlockReady
  | _ => exact hfits.elim

theorem callMove_of_tried {captured : Captured} {r : Except ε R} :
    CallMove wouldBlock k m call (.trying captured) (.result r) m
      (tried wouldBlock (call.after [.called r]) captured r) := by
  unfold tried
  cases r with
  | ok ret =>
    dsimp only
    split
    · exact .clearsAfter
    · refine .tried fun e he ↦ ?_
      cases he
  | error e =>
    dsimp only
    split
    · exact .wouldBlock ‹_›
    · rename_i hnot
      refine .tried fun e' he ↦ ?_
      cases he
      exact Bool.eq_false_iff.mpr hnot

theorem callMove_of_clearStep {result : Option R} (hfits : (Phase.clearing q result).Fits call)
    (h : clearStep k m call q result = some (m', p')) :
    CallMove wouldBlock k m call (.clearing q result) .step m' p' := by
  unfold clearStep at h
  cases q with
  | clearLoad captured =>
    cases h
    exact .clearLoad
  | clearExchange captured current =>
    simp only [Io.threadStep] at h
    cases hpass : Io.pass (.clear captured.event.tick) (· - captured.event.maskNoClosed) current
      with
    | none =>
      rw [hpass] at h
      cases h
    | some next =>
      rw [hpass] at h
      cases next with
      | none =>
        cases h
        exact .clearOld (by simpa [Io.Tick.isOld] using Io.isOld_of_pass hpass)
      | some next =>
        by_cases hword : m.word = current
        · subst hword
          simp only [if_true] at h
          cases h
          exact .clear hpass
        · simp only [hword, if_false] at h
          cases h
          exact .clearRetry hword
  | _ => exact hfits.elim

/-- The phase of a call fits it. -/
def Pc.Fits : Pc ε R → Prop
  | .call c phase => phase.Fits c
  | _ => True

theorem move_of_step {i : Agent} {a : Label ε R} (hshut : m.word.isShutdown = false)
    (hfits : p.Fits) (h : step interest wouldBlock gone i m p a = some (m', p')) :
    Move interest wouldBlock m i p a m' p' := by
  unfold step at h
  split at h
  · obtain ⟨⟨m'', q'⟩, hio, heq⟩ := Option.map_eq_some_iff.mp h
    cases heq
    exact .io (Io.move_of_step hio)
  · cases h
    exact .start
  · exact .call (callMove_of_pollStep hshut hfits h)
  · cases h
    exact .call callMove_of_tried
  · exact .call (callMove_of_clearStep hfits h)
  · cases h
    exact .leave
  · cases h

/-! ## Every call can go on, unless it waits for the lock -/

theorem isSome_pollStep (hfits : (Phase.polling q).Fits call)
    (hlock : ∀ d waker, q = .callLock d waker → m.lock = none) :
    (pollStep gone k m call q).isSome = true := by
  have hstep : (Io.threadStep k m q .step).isSome = true := by
    cases q with
    | callLoad d waker =>
      simp only [Io.threadStep]
      split <;> rfl
    | callLock d waker => simp [Io.threadStep, hlock d waker rfl]
    | callRecheck d =>
      simp only [Io.threadStep]
      split
      · rfl
      · split <;> rfl
    | store | callUnlock => rfl
    | _ => exact hfits.elim
  obtain ⟨r, hr⟩ := Option.isSome_iff_exists.mp hstep
  unfold pollStep
  rw [hr]
  split
  · contradiction
  · rfl
  · rfl

theorem isSome_clearStep {result : Option R} (hfits : (Phase.clearing q result).Fits call) :
    (clearStep k m call q result).isSome = true := by
  have hstep : (Io.threadStep k m q .step).isSome = true := by
    cases q with
    | clearLoad captured => rfl
    | clearExchange captured current =>
      simp only [Io.threadStep]
      split
      · exact absurd ‹_› (Io.pass_ne_none _ _ _)
      · rfl
      · split <;> rfl
    | _ => exact hfits.elim
  obtain ⟨r, hr⟩ := Option.isSome_iff_exists.mp hstep
  unfold clearStep
  rw [hr]
  split
  · contradiction
  · rfl
  · rfl

end ArcDischarge.Retry
