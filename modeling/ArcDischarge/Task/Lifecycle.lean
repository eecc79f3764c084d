import ArcDischarge.Task.Model
import Mathlib.Data.List.Induction

/-!
# The life of a future

A future is polled by one worker at a time, each poll ends before the next begins, and nothing is
done with the future once it has returned `Ready`, has panicked or has been dropped by a
cancellation. `phase` runs this automaton over the history of a future: it is `none` when the
history breaks the rules.
-/

namespace ArcDischarge.Task

variable {V P : Type*}

inductive Phase (V P : Type*) where
  | alive
  | polling (w : ℕ)
  /-- Finished or dropped, with the output that its joiner is due. -/
  | gone (out : Output V P)

/-- What may happen next. A cancellation takes effect on the task, not on the future. -/
def Phase.next : Phase V P → Event V P → Option (Phase V P)
  | .alive, .polled w => some (.polling w)
  | .alive, .aborted => some (.gone (.error .aborted))
  | .polling _, .polledTo o =>
    match o.output with
    | none => some .alive
    | some out => some (.gone out)
  | ph, .cancelled _ => some ph
  | _, _ => none

/-- The phase after a history, if the history keeps to the rules. -/
def phase (trace : List (Event V P)) : Option (Phase V P) := trace.foldlM Phase.next .alive

@[simp] theorem phase_nil : phase ([] : List (Event V P)) = some .alive := rfl

theorem phase_append_singleton (trace : List (Event V P)) (e : Event V P) :
    phase (trace ++ [e]) = (phase trace).bind (·.next e) := by
  simp [phase, List.foldlM_append]

@[simp] theorem phase_append_cancelled (trace : List (Event V P)) (o : Option ℕ) :
    phase (trace ++ [.cancelled o]) = phase trace := by
  rw [phase_append_singleton]
  cases phase trace with
  | none => rfl
  | some ph => cases ph <;> rfl

theorem phase_append_polled {trace : List (Event V P)}
    (h : phase trace = some .alive) (w : ℕ) :
    phase (trace ++ [.polled w]) = some (.polling w) := by
  rw [phase_append_singleton, h]
  rfl

theorem phase_append_pending {trace : List (Event V P)} {w : ℕ} {o : Outcome V P}
    (h : phase trace = some (.polling w)) (ho : o.output = none) :
    phase (trace ++ [.polledTo o]) = some .alive := by
  simp [phase_append_singleton, h, Phase.next, ho]

theorem phase_append_finish {trace : List (Event V P)} {w : ℕ} {o : Outcome V P}
    {out : Output V P} (h : phase trace = some (.polling w)) (ho : o.output = some out) :
    phase (trace ++ [.polledTo o]) = some (.gone out) := by
  simp [phase_append_singleton, h, Phase.next, ho]

theorem phase_append_aborted {trace : List (Event V P)} (h : phase trace = some .alive) :
    phase (trace ++ [.aborted]) = some (.gone (.error .aborted)) := by
  rw [phase_append_singleton, h]
  rfl

/-! ## How the last poll ended -/

/-- The outcomes of the polls, in order. -/
def outcomes (trace : List (Event V P)) : List (Outcome V P) :=
  trace.filterMap fun e ↦ match e with
    | .polledTo o => some o
    | _ => none

/-- The outcome of the last poll. -/
def lastPoll (trace : List (Event V P)) : Option (Outcome V P) := (outcomes trace).getLast?

theorem outcomes_append (s t : List (Event V P)) : outcomes (s ++ t) = outcomes s ++ outcomes t :=
  List.filterMap_append

/-- The polls ended as the phase says: all of them pending, or the last one with the output. -/
def Phase.Explains : Phase V P → List (Outcome V P) → Prop
  | .gone (.ok v), os => ∃ l, os = l ++ [.ready v] ∧ ∀ o ∈ l, o = .pending
  | .gone (.error (.panic p)), os => ∃ l, os = l ++ [.panicked p] ∧ ∀ o ∈ l, o = .pending
  | _, os => ∀ o ∈ os, o = .pending

theorem explains_of_phase {trace : List (Event V P)} {ph : Phase V P}
    (h : phase trace = some ph) : ph.Explains (outcomes trace) := by
  induction trace using List.reverseRecOn generalizing ph with
  | nil =>
    obtain rfl : Phase.alive = ph := by simpa using h
    simp [Phase.Explains, outcomes]
  | append_singleton trace e ih =>
    rw [phase_append_singleton, Option.bind_eq_some_iff] at h
    obtain ⟨ph₀, h₀, h⟩ := h
    have hih := ih h₀
    rw [outcomes_append]
    cases e with
    | cancelled o =>
      obtain rfl : ph₀ = ph := by cases ph₀ <;> simpa [Phase.next] using h
      simpa [outcomes] using hih
    | polled w =>
      cases ph₀ <;> simp only [Phase.next, reduceCtorEq, Option.some.injEq] at h
      subst h
      simpa [outcomes, Phase.Explains] using hih
    | aborted =>
      cases ph₀ <;> simp only [Phase.next, reduceCtorEq, Option.some.injEq] at h
      subst h
      simpa [outcomes, Phase.Explains] using hih
    | polledTo o =>
      cases ph₀ <;> simp only [Phase.next, reduceCtorEq] at h
      have hpending : ∀ o ∈ outcomes trace, o = .pending := hih
      cases o <;> simp only [Outcome.output, Option.some.injEq] at h <;> subst h
      · simpa [outcomes, Phase.Explains, or_imp, forall_and] using hpending
      · exact ⟨_, rfl, hpending⟩
      · exact ⟨_, rfl, hpending⟩

/-! ## What happens after a cancellation -/

/-- One event of `sinceCancel`. -/
def CancelLog.next : Option (Option ℕ × List ℕ) → Event V P → Option (Option ℕ × List ℕ)
  | none, .cancelled o => some (o, [])
  | some (o, ws), .polled w => some (o, ws ++ [w])
  | log, _ => log

/-- The poll owner at the first cancellation to take effect, and the workers that have called `poll`
since then. -/
def sinceCancel (trace : List (Event V P)) : Option (Option ℕ × List ℕ) :=
  trace.foldl CancelLog.next none

theorem sinceCancel_append_singleton (trace : List (Event V P)) (e : Event V P) :
    sinceCancel (trace ++ [e]) = CancelLog.next (sinceCancel trace) e := by
  rw [sinceCancel, List.foldl_append]
  rfl

@[simp] theorem sinceCancel_append_polled (trace : List (Event V P)) (w : ℕ) :
    sinceCancel (trace ++ [.polled w]) = (sinceCancel trace).map fun log ↦
      (log.1, log.2 ++ [w]) := by
  rw [sinceCancel_append_singleton]
  cases sinceCancel trace <;> rfl

@[simp] theorem sinceCancel_append_cancelled (trace : List (Event V P)) (o : Option ℕ) :
    sinceCancel (trace ++ [.cancelled o]) = (sinceCancel trace).or (some (o, [])) := by
  rw [sinceCancel_append_singleton]
  cases sinceCancel trace <;> rfl

@[simp] theorem sinceCancel_append_polledTo (trace : List (Event V P))
    (o : Outcome V P) : sinceCancel (trace ++ [.polledTo o]) = sinceCancel trace := by
  rw [sinceCancel_append_singleton]
  cases sinceCancel trace <;> rfl

@[simp] theorem sinceCancel_append_aborted (trace : List (Event V P)) :
    sinceCancel (trace ++ [.aborted]) = sinceCancel trace := by
  rw [sinceCancel_append_singleton]
  cases sinceCancel trace <;> rfl

end ArcDischarge.Task
