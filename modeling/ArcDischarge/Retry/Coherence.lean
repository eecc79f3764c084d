import ArcDischarge.Io.Coherence
import ArcDischarge.Io.Waiters
import ArcDischarge.Retry.Moves

/-!
# Calls and the rest of the slot

What `Io/Coherence.lean` says of the word, its log and the captured events stays true with calls on
the slot, and so does the discipline of the lock. The event of a call is captured like any other.

A step changes the word by an exchange at most, and no exchange removes a closed bit; and it changes
the slots of the directions only under the lock. That is all a call has to know of the others.
-/

namespace ArcDischarge.Retry

open Io (Agent Captured Coherent Direction Entry Interest Ready Shared)

variable {ε R : Type*} {interest : ℕ → Interest} {wouldBlock : ε → Bool} {gone : ε}
  {m m' : Shared} {i j : Agent} {p p' q : Pc ε R} {a : Label ε R} {k : ℕ} {call : Call ε R}
  {phase : Phase R}

/-- Where an agent stands on the slot. An event that a call is about to use will be cleared, as far
as this goes. -/
def Pc.inner : Pc ε R → Io.Pc
  | .io p | .call _ (.polling p) | .call _ (.clearing p _) => p
  | .call _ (.trying captured) => .clearLoad captured
  | .returned _ _ => .idle

/-- The bit for the closed state of a direction. -/
def closedBit : Direction → ℕ
  | .read => 2
  | .write => 3

theorem isClosed_iff {ready : Ready} {d : Direction} :
    isClosed ready d = true ↔ closedBit d ∈ ready := by
  cases d with
  | read => exact Ready.contains_iff fun _ ↦ Ready.mem_READ_CLOSED
  | write => exact Ready.contains_iff fun _ ↦ Ready.mem_WRITE_CLOSED

/-- What a step does to the word and its log. -/
inductive Exchange (m m' : Shared) : Prop where
  | keep (hword : m'.word = m.word) (hlog : m'.log = m.log)
  | set (turn : ℕ) (ready : Ready) (hlog : m'.log = m.log ++ [.set turn ready])
  | clear (removed : Ready) (hlog : m'.log = m.log ++ [.clear removed])
      (hclosed : ∀ d, closedBit d ∉ removed)

theorem closedBit_notMem (event : Io.ReadyEvent) (d : Direction) :
    closedBit d ∉ event.maskNoClosed := by
  cases d <;> simp [closedBit, Io.ReadyEvent.maskNoClosed]

theorem exchange_of_io {b b' : Io.Pc} {l : Io.Label} (hmove : Io.Move interest m i b l m' b') :
    Exchange m m' := by
  cases hmove with
  | set => exact .set _ _ rfl
  | clear => exact .clear _ rfl (closedBit_notMem _)
  | _ => exact .keep rfl rfl

theorem CallMove.exchange (hmove : CallMove wouldBlock k m call phase a m' p') :
    Exchange m m' := by
  cases hmove with
  | clear => exact .clear _ rfl (closedBit_notMem _)
  | _ => exact .keep rfl rfl

theorem Move.exchange (hmove : Move interest wouldBlock m i p a m' p') : Exchange m m' := by
  cases hmove with
  | io h => exact exchange_of_io h
  | call h => exact h.exchange
  | start | leave => exact .keep rfl rfl

/-- The slots of the directions change only under the lock. -/
theorem Move.slot (hmove : Move interest wouldBlock m i p a m' p') :
    m'.slot = m.slot ∨ p.inner.locks := by
  cases hmove with
  | io h =>
    cases h with
    | takeSlots | store => exact Or.inr trivial
    | _ => exact Or.inl rfl
  | call h =>
    cases h with
    | store => exact Or.inr trivial
    | _ => exact Or.inl rfl
  | start | leave => exact Or.inl rfl

theorem not_locks_cleared (result : Option R) : ¬(cleared call result).inner.locks := by
  cases result <;> exact not_false

theorem captured?_cleared (result : Option R) :
    (cleared call result).inner.captured? = none := by
  cases result <;> rfl

theorem Move.lockStep (hmove : Move interest wouldBlock m i p a m' p') :
    LockStep i m.lock m'.lock p.inner.locks p'.inner.locks := by
  cases hmove with
  | io h => exact Io.lockStep_of_move h
  | call h =>
    cases h with
    | lock hlock => exact .acquire hlock rfl trivial
    | unlock | unlockReady => exact .release trivial rfl not_false
    | clearOld | clear => exact .keep rfl (iff_of_false (not_locks_cleared _) not_false)
    | _ => exact .keep rfl Iff.rfl
  | start | leave => exact .keep rfl Iff.rfl

theorem Move.coherent (hmove : Move interest wouldBlock m i p a m' p') (h : Coherent m)
    (hok : Io.Ok i m p.inner) : Coherent m' := by
  cases hmove with
  | io hio => exact h.move hok hio
  | call hcall =>
    cases hcall with
    | clear hpass => exact h.clear hpass
    | _ => exact h.frame rfl rfl (Or.inl ⟨rfl, rfl⟩) h.held
  | start | leave => exact h

/-- A point of a call, where nobody is about to set the readiness. -/
theorem ok_of_thread {b : Io.Pc} (h : ∀ x, b.captured? = some x → x.Of m.log) :
    Io.Ok (.thread k) m b := ⟨h, fun hk ↦ by cases hk⟩

theorem Move.ok (hmove : Move interest wouldBlock m i p a m' p') (h : Coherent m)
    (hok : Io.Ok i m p.inner) : Io.Ok i m' p'.inner := by
  cases hmove with
  | io hio => exact hok.move h hio
  | start | leave => exact ok_of_thread fun x hx ↦ by cases hx
  | call hcall =>
    cases hcall with
    | loadReady | recheckReady =>
      refine ok_of_thread fun x hx ↦ ?_
      cases hx
      exact h.of_capture _
    | clearOld | clear =>
      refine ok_of_thread fun x hx ↦ ?_
      rw [captured?_cleared] at hx
      cases hx
    | load | lock | store | recheck | unlock | tried =>
      exact ok_of_thread fun x hx ↦ by cases hx
    | unlockReady | wouldBlock | clearsAfter | clearLoad | clearRetry =>
      exact ok_of_thread hok.captured

theorem Move.ok_other (hmove : Move interest wouldBlock m i p a m' p') (hj : j ≠ i)
    (hok : Io.Ok j m q.inner) : Io.Ok j m' q.inner := by
  cases hmove with
  | io hio => exact hok.other hj hio
  | start | leave => exact hok
  | call hcall =>
    cases hcall with
    | clear =>
      refine ⟨fun x hx ↦ (hok.captured x hx).append _, fun hdriver hset ↦ ?_⟩
      rw [Io.turns_append_clear]
      exact hok.setting hdriver hset
    | _ => exact ⟨hok.captured, hok.setting⟩

theorem fits_cleared (result : Option R) : (cleared call result).Fits := by
  cases result with
  | none => exact ⟨rfl, rfl⟩
  | some => trivial

theorem Move.fits (hmove : Move interest wouldBlock m i p a m' p')
    (hshut : m.word.isShutdown = false) (h : p.Fits) : p'.Fits := by
  cases hmove with
  | io | leave => trivial
  | start => exact ⟨rfl, rfl⟩
  | call hcall =>
    cases hcall with
    | load | lock => exact ⟨rfl, rfl⟩
    | loadReady => exact hshut
    | store => exact rfl
    | recheck => exact fun x hx ↦ by cases hx
    | recheckReady =>
      refine fun x hx ↦ ?_
      cases hx
      exact hshut
    | unlockReady => exact h _ rfl
    | clearOld | clear => exact fits_cleared _
    | unlock | tried | wouldBlock | clearsAfter | clearLoad | clearRetry => trivial

/-- What is true of every agent on the slot. -/
structure Sound (i : Agent) (m : Shared) (p : Pc ε R) : Prop where
  ok : Io.Ok i m p.inner
  locks : p.inner.locks ↔ m.lock = some i
  fits : p.Fits

theorem sound_of_reachableUnder {G : State ε R → Agent × Label ε R → Prop} {c : State ε R}
    (h : (machine interest wouldBlock gone).ReachableUnder G c) :
    System.Holds Coherent Sound c := by
  refine System.holds_of_reachableUnder h ?_ ?_ ?_
  · rintro _ ⟨_, ⟨word, slot, turn, hword, rfl⟩, rfl⟩
    have hcoherent := @Io.coherent_new word slot turn (Io.Word.holds_nil hword)
    refine ⟨hcoherent.1, fun i ↦ ⟨hcoherent.2 i, ?_, trivial⟩⟩
    cases i <;> simp [State.ofIo, Io.State.new, Pc.inner, Io.Pc.locks]
  · intro c i a m p _ hc _ hstep
    have hi := hc.2 i
    have hmove := move_of_step hc.1.word.isShutdown hi.fits hstep
    exact ⟨hmove.coherent hc.1 hi.ok, hmove.ok hc.1 hi.ok, hmove.lockStep.own hi.locks,
      hmove.fits hc.1.word.isShutdown hi.fits⟩
  · intro c i a m p _ hc _ hstep j hj
    have hi := hc.2 i
    have hmove := move_of_step hc.1.word.isShutdown hi.fits hstep
    have hlocks := (hc.2 j).locks
    exact ⟨hmove.ok_other hj (hc.2 j).ok, hlocks.trans (hmove.lockStep.other hi.locks hj).symm,
      (hc.2 j).fits⟩

end ArcDischarge.Retry
