import ArcDischarge.BlockOn.Model

/-!
# Parking while the handle is pending

The waker of a poll is registered after the poll has begun, and a result announced to it sets the
park token. The token is taken only by a `park` that comes after the poll, and the next poll looks
for the result anew. So a thread that sleeps in `park` without its token has its waker registered,
and the result is not there yet or its publisher has still to wake.
-/

namespace ArcDischarge.BlockOn

open ArcDischarge.Task Machine

variable {V P : Type*}

/-- The call of `JoinHandle::poll` that the joiner is in. -/
def joinCall : Pc V P Unit → Option (JoinCall Unit)
  | .takeLock call _ | .take call _ | .takeUnlock call _ _ | .register call => some call
  | _ => none

/-- The poll under way, or the one whose `Pending` the thread has parked on. -/
def Current (s : State V P) (call : JoinCall Unit) : Prop :=
  joinCall (s.task.pc .joiner) = some call ∨ s.stage = .parked ∧ s.task.shared.pending = some call

/-- The loop against the joiner of the task. -/
structure Sound (s : State V P) : Prop where
  idle : s.stage = .polling ∨ s.task.pc .joiner = .idle
  polling : s.stage = .polling → s.task.pc .joiner ≠ .idle
  /-- A waker woken since the current poll began has set the token. -/
  token : ∀ call, Current s call → call.began < s.task.shared.woken.length → s.token = true
  parked : s.stage = .parked → s.task.shared.pending ≠ none
  returned : ∀ val, s.stage = .returned val → s.task.shared.joined = some val
  looping : (∀ val, s.stage ≠ .returned val) → s.task.shared.joined = none

variable {s t : State V P} {a : Action V P}

/-- Only the joiner returns outputs. -/
theorem joined_eq {W : Type*} {m m' : Shared V P W} {p p' : Pc V P W} {a : Label V P W} {i : Agent}
    (h : Task.Move m i p a m' p') (hi : i ≠ .joiner) : m'.joined = m.joined := by
  cases h with
  | join | takeLock | takeNothing | take | joinReady | joinRegister | joinPending | register =>
    exact absurd rfl hi
  | _ => rfl

theorem Sound.task {i : Agent} {a : Label V P Unit} {m : Shared V P Unit} {p : Pc V P Unit}
    (hs : Sound s) (hi : i ≠ .joiner) (h : Task.Move s.task.shared i (s.task.pc i) a m p) :
    Sound { s with
      task := ⟨m, Function.update s.task.pc i p⟩
      token := s.token || unparks s.task ⟨m, Function.update s.task.pc i p⟩ } := by
  obtain ⟨hpending, hwoken, -, -⟩ := h.announces hi
  have hjoined := joined_eq h hi
  have hpc : Function.update s.task.pc i p .joiner = s.task.pc .joiner :=
    Function.update_of_ne hi.symm _ _
  obtain ⟨hidle, hpolling, htoken, hparked, hreturned, hlooping⟩ := hs
  refine ⟨by simpa [hpc] using hidle, by simpa [hpc] using hpolling, ?_,
    by simpa [hpending] using hparked, by simpa [hjoined] using hreturned,
    by simpa [hjoined] using hlooping⟩
  intro call hcall hbegan
  have hcall' : Current s call := by simpa [Current, hpc, hpending] using hcall
  by_cases hlt : call.began < s.task.shared.woken.length
  · simp [htoken call hcall' hlt]
  · -- the wake is this very step
    have hgrows : s.task.shared.woken.length < m.woken.length := by
      have hm : call.began < m.woken.length := hbegan
      omega
    simp [unparks, hgrows]

theorem Sound.poll {m : Shared V P Unit} {p : Pc V P Unit} (hs : Sound s)
    (hstage : s.stage = .call)
    (h : Task.Move s.task.shared .joiner (s.task.pc .joiner) (.join ()) m p) :
    Sound { s with task := ⟨m, Function.update s.task.pc .joiner p⟩, stage := .polling } := by
  have hlooping := hs.looping (by simp [hstage])
  generalize hpc : s.task.pc .joiner = q at h
  cases h with
  | join =>
    refine ⟨Or.inl rfl, by simp, ?_, by simp, by simp, fun _ ↦ hlooping⟩
    rintro call (hcall | ⟨hparked, -⟩) hbegan
    · simp only [Function.update_self, joinCall, Option.some.injEq] at hcall
      subst hcall
      exact absurd hbegan (lt_irrefl _)
    · cases hparked

theorem Sound.step {m : Shared V P Unit} {p : Pc V P Unit} (hs : Sound s)
    (hstage : s.stage = .polling)
    (h : Task.Move s.task.shared .joiner (s.task.pc .joiner) .step m p) :
    Sound { s with
      task := ⟨m, Function.update s.task.pc .joiner p⟩
      stage := .next (s.task.pc .joiner) } := by
  have hlooping := hs.looping (by simp [hstage])
  have htoken (call : JoinCall Unit) (hcall : joinCall (s.task.pc .joiner) = some call) :=
    hs.token call (Or.inl hcall)
  generalize hpc : s.task.pc .joiner = q at h htoken
  cases h with
  | takeLock | takeNothing | take | joinRegister | register =>
    refine ⟨Or.inl rfl, by simp, ?_, by simp [Stage.next], by simp [Stage.next],
      fun _ ↦ hlooping⟩
    rintro call (hcall | ⟨hparked, -⟩) hbegan
    · exact htoken call (by simpa [joinCall] using hcall) hbegan
    · cases hparked
  | @joinReady call again val =>
    refine ⟨Or.inr (by simp), by simp [Stage.next], ?_, by simp [Stage.next], ?_, ?_⟩
    · rintro call (hcall | ⟨hparked, -⟩) hbegan
      · simp [joinCall] at hcall
      · cases hparked
    · rintro val' hval
      cases hval
      simp [hlooping]
    · intro hne
      exact absurd rfl (hne val)
  | @joinPending call =>
    refine ⟨Or.inr (by simp), by simp [Stage.next], ?_, by simp, by simp [Stage.next],
      fun _ ↦ hlooping⟩
    rintro call' (hcall | ⟨-, hpending⟩) hbegan
    · simp [joinCall] at hcall
    · exact htoken call' (by simpa [joinCall] using hpending) hbegan

theorem sound_of_reachable (h : (machine V P).Reachable s) : Sound s := by
  refine h.invariant ?_ fun s a t _ hs _ hst ↦ ?_
  · rintro s ⟨htask, hstage⟩
    refine ⟨Or.inr ?_, by simp [hstage], ?_, by simp [hstage], by simp [hstage], ?_⟩
    · simp [htask, State.new]
    · rintro call (hcall | ⟨hparked, -⟩) -
      · simp [htask, State.new, joinCall] at hcall
      · cases hstage.symm.trans hparked
    · simp [htask, State.new, Shared.new]
  · cases move_of_step hst with
    | task hi h => exact hs.task hi h
    | poll hstage h => exact hs.poll hstage h
    | step hstage h => exact hs.step hstage h
    | park hstage _ | spurious hstage =>
      -- the poll that the thread parked on is over
      have hidle := hs.idle.resolve_left (by simp [hstage])
      refine ⟨Or.inr hidle, by simp, ?_, by simp, by simp,
        fun _ ↦ hs.looping (by simp [hstage])⟩
      rintro call (hcall | ⟨hparked, -⟩) -
      · rw [hidle] at hcall
        cases hcall
      · cases hparked
    | unpark =>
      exact ⟨hs.idle, hs.polling, fun _ _ _ ↦ rfl, hs.parked, hs.returned, hs.looping⟩

/-- A thread that sleeps without its token waits for a publisher that will set it. -/
theorem publishes_of_parked (h : (machine V P).Reachable s) (hstage : s.stage = .parked)
    (htoken : s.token = false) : s.task.shared.waker = some () ∧
      (s.task.shared.inner = .future ∨ ∃ i, (s.task.pc i).publishes) := by
  have hs := sound_of_reachable h
  have hlistens := listens_of_reachable (reachable_task h)
  obtain ⟨call, hpending⟩ := Option.ne_none_iff_exists'.mp (hs.parked hstage)
  have hidle := hs.idle.resolve_left (by simp [hstage])
  have hexpects := hlistens.expects
  rw [hidle] at hexpects
  refine (hexpects call hpending).2.resolve_left fun hwoken ↦ ?_
  have hbegan : call.began < s.task.shared.woken.length := by
    by_contra hle
    rw [Woken, List.drop_eq_nil_of_le (not_lt.mp hle)] at hwoken
    cases hwoken
  rw [hs.token call (Or.inr ⟨hstage, hpending⟩) hbegan] at htoken
  cases htoken

/-- What `block_on` returns, and how it sleeps. -/
structure Blocks (s : State V P) : Prop where
  /-- The output is the one that the history of the future calls for. -/
  ok : ∀ val v, s.stage = .returned val →
    (val = .ok v ↔ lastPoll s.task.shared.trace = some (.ready v))
  panic : ∀ val p, s.stage = .returned val →
    (val = .error (.panic p) ↔ lastPoll s.task.shared.trace = some (.panicked p))
  aborted : s.stage = .returned (.error .aborted) → sinceCancel s.task.shared.trace ≠ none
  /-- A thread in `park` will be let out of it once there is a result. -/
  awake : s.stage = .parked → (∃ val, s.task.shared.inner = .ret val) →
    s.token = true ∨ ∃ i, (s.task.pc i).publishes

/-- **`block_on` returns the task's own outcome and never sleeps through it**, whatever the workers,
wakers and cancellers of the task do, and however often the thread is unparked for other reasons or
wakes up for none. -/
theorem blocks_of_reachable (s : State V P) (h : (machine V P).Reachable s) : Blocks s := by
  have hs := sound_of_reachable h
  obtain ⟨hF, -⟩ := faithful_of_reachable (reachable_task h)
  have hphase (val : Output V P) (hval : s.stage = .returned val) :
      phase s.task.shared.trace = some (.gone val) :=
    hF.taken val (hF.joined val (hs.returned val hval))
  refine ⟨fun val v hval ↦ (lastPoll_eq_some (hphase val hval)).1 v,
    fun val p hval ↦ (lastPoll_eq_some (hphase val hval)).2 p, fun hval ↦ ?_,
    fun hstage hret ↦ ?_⟩
  · obtain ⟨l, hl, hlog⟩ := hF.aborted (hphase _ hval)
    rw [hl, sinceCancel_append_aborted]
    exact hlog
  · cases htoken : s.token with
    | true => exact Or.inl rfl
    | false =>
      refine Or.inr ((publishes_of_parked h hstage htoken).2.resolve_left ?_)
      exact inner_ne_future.2 hret

end ArcDischarge.BlockOn
