import Mathlib.Logic.Function.Basic

/-!
# Machines and their runs

A machine is a set of initial states and a partial step function: an action either is not enabled
in a state or leads to exactly one state. All nondeterminism — which agent moves, what the
environment answers — is in the choice of the action, so a run is just a list of actions and can be
executed.

Properties of runs come in two forms. `ReachableUnder G` collects the states reached by runs all of
whose steps satisfy the condition `G`; it is what invariants are proved about, with `Reachable` for
the unrestricted case. `Along P` says that `P` holds at every step of one given run; it is the form
for statements that compare two conditions on the same run.
-/

namespace ArcDischarge

/-- A machine: initial states and a partial step function over actions. -/
structure Machine (σ α : Type*) where
  /-- The states a run may start in. -/
  init : σ → Prop
  /-- The state an action leads to, or `none` where it is not enabled. -/
  step : σ → α → Option σ

namespace Machine

variable {σ α : Type*} (m : Machine σ α)

/-- The states reached by runs all of whose steps satisfy `G`. -/
inductive ReachableUnder (G : σ → α → Prop) : σ → Prop where
  | init {s : σ} (h : m.init s) : ReachableUnder G s
  | step {s t : σ} {a : α} (hs : ReachableUnder G s) (hg : G s a) (h : m.step s a = some t) :
      ReachableUnder G t

/-- The states reached by any run. -/
abbrev Reachable : σ → Prop := m.ReachableUnder fun _ _ ↦ True

variable {m}

/-- **The invariant rule.** What holds initially and is preserved by every step that satisfies `G`
holds in every state reached under `G`. The step may use that its source state is reached under
`G`, so invariants can be proved one on top of another. -/
theorem ReachableUnder.invariant {G : σ → α → Prop} {I : σ → Prop} {s : σ}
    (h : m.ReachableUnder G s) (hinit : ∀ s, m.init s → I s)
    (hstep : ∀ s a t, m.ReachableUnder G s → I s → G s a → m.step s a = some t → I t) : I s := by
  induction h with
  | init h => exact hinit _ h
  | step hs hg h ih => exact hstep _ _ _ hs ih hg h

theorem ReachableUnder.mono {G G' : σ → α → Prop} {s : σ} (h : m.ReachableUnder G s)
    (hG : ∀ s a, G s a → G' s a) : m.ReachableUnder G' s := by
  induction h with
  | init h => exact .init h
  | step _ hg h ih => exact .step ih (hG _ _ hg) h

theorem ReachableUnder.reachable {G : σ → α → Prop} {s : σ} (h : m.ReachableUnder G s) :
    m.Reachable s := h.mono fun _ _ _ ↦ trivial

/-! ## Executing a list of actions -/

variable (m)

/-- Execute the actions of a list in order. -/
def exec : σ → List α → Option σ
  | s, [] => some s
  | s, a :: as => (m.step s a).bind fun t ↦ exec t as

/-- `P` holds at every step of the run `as` from `s`, as far as the run is enabled. -/
def Along (P : σ → α → Prop) : σ → List α → Prop
  | _, [] => True
  | s, a :: as => P s a ∧ ∀ t, m.step s a = some t → Along P t as

variable {m}

@[simp] theorem exec_nil (s : σ) : m.exec s [] = some s := rfl

theorem exec_cons (s : σ) (a : α) (as : List α) :
    m.exec s (a :: as) = (m.step s a).bind fun t ↦ m.exec t as := rfl

instance decidableAlong {P : σ → α → Prop} [∀ s a, Decidable (P s a)] :
    ∀ (s : σ) (as : List α), Decidable (m.Along P s as)
  | _, [] => isTrue trivial
  | s, a :: as =>
    match h : m.step s a with
    | none => decidable_of_iff (P s a) (by simp [Along, h])
    | some t =>
      have : Decidable (m.Along P t as) := decidableAlong t as
      decidable_of_iff (P s a ∧ m.Along P t as) (by simp [Along, h])

theorem Along.mono {P Q : σ → α → Prop} {s : σ} {as : List α} (h : m.Along P s as)
    (hPQ : ∀ s a, P s a → Q s a) : m.Along Q s as := by
  induction as generalizing s with
  | nil => trivial
  | cons a as ih => exact ⟨hPQ s a h.1, fun t ht ↦ ih (h.2 t ht)⟩

theorem Along.and {P Q : σ → α → Prop} {s : σ} {as : List α} (hP : m.Along P s as)
    (hQ : m.Along Q s as) : m.Along (fun s a ↦ P s a ∧ Q s a) s as := by
  induction as generalizing s with
  | nil => trivial
  | cons a as ih => exact ⟨⟨hP.1, hQ.1⟩, fun t ht ↦ ih (hP.2 t ht) (hQ.2 t ht)⟩

/-- **The rule for exact conditions.** Where the steps that satisfy `G` keep an invariant `I` from
which `P` follows, and a step into states with `P` satisfies `G`, the runs all of whose states
satisfy `P` are those all of whose steps satisfy `G`. -/
theorem along_iff {P I : σ → Prop} {G : σ → α → Prop} {s : σ} (hs : I s)
    (keep : ∀ c a d, I c → G c a → m.step c a = some d → I d) (sound : ∀ c, I c → P c)
    (need : ∀ c a, I c → (∀ d, m.step c a = some d → P d) → G c a) (as : List α) :
    m.Along (fun c a ↦ ∀ d, m.step c a = some d → P d) s as ↔ m.Along G s as := by
  induction as generalizing s with
  | nil => exact Iff.rfl
  | cons a as ih =>
    constructor
    · intro h
      have hG := need s a hs h.1
      exact ⟨hG, fun t ht ↦ (ih (keep s a t hs hG ht)).mp (h.2 t ht)⟩
    · intro h
      have hI (t : σ) (ht : m.step s a = some t) : I t := keep s a t hs h.1 ht
      exact ⟨fun t ht ↦ sound t (hI t ht), fun t ht ↦ (ih (hI t ht)).mpr (h.2 t ht)⟩

theorem ReachableUnder.of_exec {G : σ → α → Prop} {s t : σ} {as : List α}
    (hs : m.ReachableUnder G s) (hG : m.Along G s as) (h : m.exec s as = some t) :
    m.ReachableUnder G t := by
  induction as generalizing s with
  | nil =>
    rw [exec_nil, Option.some.injEq] at h
    exact h ▸ hs
  | cons a as ih =>
    rw [exec_cons, Option.bind_eq_some_iff] at h
    obtain ⟨u, hu, h⟩ := h
    exact ih (.step hs hG.1 hu) (hG.2 u hu) h

/-- The form for concrete runs, where the last state is left to be computed. -/
theorem ReachableUnder.of_isSome_exec {G : σ → α → Prop} {s : σ} (hs : m.ReachableUnder G s)
    (as : List α) (hG : m.Along G s as) (h : (m.exec s as).isSome) :
    m.ReachableUnder G ((m.exec s as).get h) :=
  hs.of_exec hG (Option.some_get h).symm

theorem Reachable.of_exec {s t : σ} {as : List α} (hs : m.Reachable s)
    (h : m.exec s as = some t) : m.Reachable t := by
  refine ReachableUnder.of_exec hs ?_ h
  clear h hs
  induction as generalizing s with
  | nil => trivial
  | cons a as ih => exact ⟨trivial, fun _ _ ↦ ih⟩

end Machine

end ArcDischarge
