import Mathlib.Logic.Function.Basic

/-!
# Resources with a recorded holder

A lock, or any other resource that one agent has at a time, is modelled by its holder. `LockStep`
says what a step of an agent may do with it: take it when it is free, give it back, or leave it
alone. A program keeps to this if its critical sections are the program counters between the two;
then "an agent is in its critical section exactly when it is the recorded holder" is an invariant,
and mutual exclusion follows.
-/

namespace ArcDischarge

/-- A step of agent `i` and a resource that `held` has before it and `held'` after it, where
`inside` and `inside'` say whether the agent is in its critical section. -/
inductive LockStep {ι : Type*} (i : ι) (held held' : Option ι) (inside inside' : Prop) : Prop where
  | keep (h : held' = held) (hinside : inside' ↔ inside)
  | acquire (h : held = none) (h' : held' = some i) (hinside' : inside')
  | release (hinside : inside) (h' : held' = none) (hinside' : ¬inside')

namespace LockStep

variable {ι : Type*} {i j : ι} {held held' : Option ι} {inside inside' : Prop}

theorem held_of_inside (h : LockStep i held held' inside inside') (hi : inside → held = some i)
    (hinside' : inside') : held' = some i := by
  cases h with
  | keep h hinside => rw [h, hi (hinside.mp hinside')]
  | acquire _ h' _ => exact h'
  | release _ _ hnot => exact absurd hinside' hnot

theorem inside_of_held (h : LockStep i held held' inside inside') (hi : held = some i → inside)
    (hheld' : held' = some i) : inside' := by
  cases h with
  | keep h hinside => exact hinside.mpr (hi (h ▸ hheld'))
  | acquire _ _ hinside' => exact hinside'
  | release _ h' _ =>
    rw [h'] at hheld'
    cases hheld'

/-- Nobody else loses the resource. -/
theorem held_of_ne (h : LockStep i held held' inside inside') (hi : inside → held = some i)
    (hj : j ≠ i) (hheld : held = some j) : held' = some j := by
  cases h with
  | keep h _ => rwa [h]
  | acquire hnone _ _ =>
    rw [hnone] at hheld
    cases hheld
  | release hinside _ _ =>
    rw [hi hinside] at hheld
    exact absurd (Option.some.inj hheld).symm hj

/-- Nobody else gets the resource. -/
theorem of_held_of_ne (h : LockStep i held held' inside inside') (hj : j ≠ i)
    (hheld' : held' = some j) : held = some j := by
  cases h with
  | keep h _ => rwa [h] at hheld'
  | acquire _ h' _ =>
    rw [h'] at hheld'
    exact absurd (Option.some.inj hheld').symm hj
  | release _ h' _ =>
    rw [h'] at hheld'
    cases hheld'

/-- The agent that moves is inside exactly when it is the holder. -/
theorem own (h : LockStep i held held' inside inside') (hi : inside ↔ held = some i) :
    inside' ↔ held' = some i :=
  ⟨h.held_of_inside hi.mp, h.inside_of_held hi.mpr⟩

theorem other (h : LockStep i held held' inside inside') (hi : inside ↔ held = some i)
    (hj : j ≠ i) : held' = some j ↔ held = some j :=
  ⟨h.of_held_of_ne hj, h.held_of_ne hi.mp hj⟩

/-- One of a family of resources changes hands. -/
theorem update {κ : Type*} [DecidableEq κ] {held : κ → Option ι} {k l : κ} {v : Option ι}
    (h : l = k → LockStep i (held k) v inside inside') (hne : l ≠ k → (inside' ↔ inside)) :
    LockStep i (held l) (Function.update held k v l) inside inside' := by
  by_cases hl : l = k
  · have hstep := h hl
    subst hl
    rwa [Function.update_self]
  · exact .keep (Function.update_of_ne hl _ _) (hne hl)

end LockStep

end ArcDischarge
