import ArcDischarge.Machine.System
import Mathlib.Order.WellFounded

/-!
# Infinite runs and fairness

Invariants say what a machine never does. What it eventually does needs runs without an end, and an
assumption about the scheduler: a `Run` takes an action or rests at each instant, and it is fair to
a class of actions when the class is not enabled again and again without ever being taken (strongly
fair), or at least not enabled forever (weakly fair). Nothing else is assumed of the order of the
actions.

The proof rule is the one for helpful actions. While the goal is not reached, some class of actions
is helpful: fairness will serve it, taking any of its actions brings the rank down, and whatever
else happens meanwhile either brings the rank down as well or leaves that class helpful. Which class
it is may differ from state to state.
-/

namespace ArcDischarge

namespace Machine

variable {σ α : Type*} {m : Machine σ α}

/-- Some action of the class `A` can be taken. -/
def Enabled (m : Machine σ α) (A : α → Prop) (s : σ) : Prop :=
  ∃ a t, A a ∧ m.step s a = some t

theorem Enabled.of_isSome {A : α → Prop} {s : σ} {a : α} (ha : A a) (h : (m.step s a).isSome) :
    m.Enabled A s := by
  obtain ⟨t, ht⟩ := Option.isSome_iff_exists.mp h
  exact ⟨a, t, ha, ht⟩

/-- `P` is left to `Q` only. -/
def Unless (m : Machine σ α) (P Q : σ → Prop) : Prop :=
  ∀ s a t, m.Reachable s → P s → m.step s a = some t → P t ∨ Q t

/-- An action is taken, or nothing happens. -/
def advance (m : Machine σ α) (s : σ) : Option α → Option σ
  | none => some s
  | some a => m.step s a

/-- A run without an end. -/
structure Run (m : Machine σ α) where
  state : ℕ → σ
  act : ℕ → Option α
  init : m.init (state 0)
  next : ∀ n, m.advance (state n) (act n) = some (state (n + 1))

namespace Run

variable (r : m.Run)

/-- Every action of the run satisfies `G`. -/
def Obeys (G : σ → α → Prop) : Prop := ∀ n a, r.act n = some a → G (r.state n) a

theorem obeys_true : r.Obeys fun _ _ ↦ True := fun _ _ _ ↦ trivial

/-- What the actions of the run keep holds from some instant on. -/
theorem keeps {I : σ → Prop} {n k : ℕ} (hk : n ≤ k) (hn : I (r.state n))
    (hstep : ∀ l a, n ≤ l → r.act l = some a → m.step (r.state l) a = some (r.state (l + 1)) →
      I (r.state l) → I (r.state (l + 1))) : I (r.state k) := by
  induction k, hk using Nat.le_induction with
  | base => exact hn
  | succ k hk ih =>
    have hnext := r.next k
    cases hact : r.act k with
    | none =>
      rw [hact, advance, Option.some.injEq] at hnext
      exact hnext ▸ ih
    | some a =>
      rw [hact, advance] at hnext
      exact hstep k a hk hact hnext ih

variable {r} in
theorem Obeys.reachable {G : σ → α → Prop} (h : r.Obeys G) (n : ℕ) :
    m.ReachableUnder G (r.state n) :=
  r.keeps (Nat.zero_le n) (.init r.init) fun l a _ hact hnext hs ↦ .step hs (h l a hact) hnext

theorem reachable (n : ℕ) : m.Reachable (r.state n) := r.obeys_true.reachable n

/-- What every step of the machine keeps. -/
theorem stable {I : σ → Prop} (hstep : ∀ s a t, m.Reachable s → I s → m.step s a = some t → I t)
    {n k : ℕ} (hk : n ≤ k) (hn : I (r.state n)) : I (r.state k) :=
  r.keeps hk hn fun l a _ _ hnext hI ↦ hstep _ a _ (r.reachable l) hI hnext

/-- Whenever `P` holds, `Q` holds then or later. -/
def LeadsTo (P Q : σ → Prop) : Prop := ∀ n, P (r.state n) → ∃ k, n ≤ k ∧ Q (r.state k)

/-- The class is taken sooner or later where `H` holds from some instant on. -/
def Served (A : α → Prop) (H : σ → Prop) : Prop :=
  ∀ n, (∀ k, n ≤ k → H (r.state k)) → ∃ k a, n ≤ k ∧ A a ∧ r.act k = some a

/-- The actions of the class are not enabled forever without one of them being taken. -/
def WeaklyFair (A : α → Prop) : Prop := r.Served A (m.Enabled A)

/-- The actions of the class are not enabled again and again without one of them being taken. -/
def StronglyFair (A : α → Prop) : Prop :=
  ∀ n, (∀ k, n ≤ k → ∃ l, k ≤ l ∧ m.Enabled A (r.state l)) →
    ∃ k a, n ≤ k ∧ A a ∧ r.act k = some a

variable {r}

theorem LeadsTo.of_imp {P Q : σ → Prop} (h : ∀ s, m.Reachable s → P s → Q s) : r.LeadsTo P Q :=
  fun n hn ↦ ⟨n, le_rfl, h _ (r.reachable n) hn⟩

theorem LeadsTo.trans {P Q R : σ → Prop} (hPQ : r.LeadsTo P Q) (hQR : r.LeadsTo Q R) :
    r.LeadsTo P R := by
  intro n hn
  obtain ⟨k, hk, hQ⟩ := hPQ n hn
  obtain ⟨l, hl, hR⟩ := hQR k hQ
  exact ⟨l, hk.trans hl, hR⟩

theorem LeadsTo.or {P P' Q : σ → Prop} (h : r.LeadsTo P Q) (h' : r.LeadsTo P' Q) :
    r.LeadsTo (fun s ↦ P s ∨ P' s) Q := by
  intro n hn
  rcases hn with hn | hn
  · exact h n hn
  · exact h' n hn

/-- What is reached one by one and never left is reached together. -/
theorem LeadsTo.forall_lt {P : σ → Prop} {Q : ℕ → σ → Prop} {n : ℕ}
    (h : ∀ i, i < n → r.LeadsTo P (Q i))
    (hQ : ∀ i s a t, m.Reachable s → Q i s → m.step s a = some t → Q i t) :
    r.LeadsTo P fun s ↦ ∀ i, i < n → Q i s := by
  intro k hk
  induction n with
  | zero => exact ⟨k, le_rfl, fun i hi ↦ absurd hi (Nat.not_lt_zero i)⟩
  | succ n ih =>
    obtain ⟨l, hl, hbelow⟩ := ih fun i hi ↦ h i (hi.trans (Nat.lt_succ_self n))
    obtain ⟨l', hl', hlast⟩ := h n (Nat.lt_succ_self n) k hk
    refine ⟨max l l', hl.trans (le_max_left _ _), fun i hi ↦ ?_⟩
    rcases Nat.lt_succ_iff_lt_or_eq.mp hi with hi | rfl
    · exact r.stable (hQ i) (le_max_left _ _) (hbelow i hi)
    · exact r.stable (hQ i) (le_max_right _ _) hlast

/-! ### What fairness serves -/

theorem WeaklyFair.served_of_obeys {G : σ → α → Prop} {A : α → Prop} {H : σ → Prop}
    (h : r.WeaklyFair A) (hobeys : r.Obeys G)
    (henabled : ∀ s, m.ReachableUnder G s → H s → m.Enabled A s) : r.Served A H :=
  fun n hn ↦ h n fun k hk ↦ henabled _ (hobeys.reachable k) (hn k hk)

theorem WeaklyFair.served {A : α → Prop} {H : σ → Prop} (h : r.WeaklyFair A)
    (henabled : ∀ s, m.Reachable s → H s → m.Enabled A s) : r.Served A H :=
  h.served_of_obeys r.obeys_true henabled

/-- A class that comes to be enabled as long as it is waited for. -/
theorem StronglyFair.served {A : α → Prop} {H : σ → Prop} (h : r.StronglyFair A)
    (henabled : r.LeadsTo H fun s ↦ H s → m.Enabled A s) : r.Served A H := by
  intro n hn
  refine h n fun k hk ↦ ?_
  obtain ⟨l, hl, hen⟩ := henabled k (hn k hk)
  exact ⟨l, hl, hen (hn l (hk.trans hl))⟩

theorem StronglyFair.weaklyFair {A : α → Prop} (h : r.StronglyFair A) : r.WeaklyFair A :=
  fun n hn ↦ h n fun k hk ↦ ⟨k, le_rfl, hn k hk⟩

/-! ### The rule of helpful actions -/

/-- The premises of the rule: towards `Q`, from `P`, with the classes of actions `A` helping, in
runs whose actions satisfy `G`. -/
structure Helped (m : Machine σ α) {κ ρ : Type*} [Preorder ρ] (G : σ → α → Prop)
    (A : κ → α → Prop) (P Q : σ → Prop) (rank : σ → ρ) (Helps : κ → σ → Prop) : Prop where
  exists_helps : ∀ s, m.ReachableUnder G s → P s → Q s ∨ ∃ j, Helps j s
  /-- A step that does not bring the rank down is none of a helpful class, and leaves what is
  helpful so. -/
  step : ∀ s a t, m.ReachableUnder G s → P s → G s a → m.step s a = some t →
    Q t ∨ P t ∧ (rank t < rank s ∨ rank t = rank s ∧ ∀ j, Helps j s → ¬A j a ∧ Helps j t)

variable {κ ρ : Type*} [Preorder ρ] {G : σ → α → Prop} {A : κ → α → Prop} {P Q : σ → Prop}
  {rank : σ → ρ} {Helps : κ → σ → Prop}

/-- As long as the goal is not reached and the rank does not come down, what helps goes on helping
and is not taken. -/
theorem Helped.persists (h : Helped m G A P Q rank Helps) (hobeys : r.Obeys G) {n k : ℕ}
    (hk : n ≤ k) (hP : P (r.state n)) {j : κ} (hj : Helps j (r.state n))
    (hQ : ∀ l, n ≤ l → ¬Q (r.state l))
    (hrank : ∀ l, n ≤ l → P (r.state l) → ¬rank (r.state l) < rank (r.state n)) :
    (P (r.state k) ∧ Helps j (r.state k)) ∧ ∀ a, r.act k = some a → ¬A j a := by
  have hone {k : ℕ} (hk : n ≤ k) {a : α} (hact : r.act k = some a)
      (hnext : m.step (r.state k) a = some (r.state (k + 1)))
      (hI : P (r.state k) ∧ Helps j (r.state k) ∧ rank (r.state k) = rank (r.state n)) :
      (P (r.state (k + 1)) ∧ Helps j (r.state (k + 1)) ∧
        rank (r.state (k + 1)) = rank (r.state n)) ∧ ¬A j a := by
    obtain ⟨hP, hj, heq⟩ := hI
    have hk' : n ≤ k + 1 := hk.trans (Nat.le_succ k)
    rcases h.step _ a _ (hobeys.reachable k) hP (hobeys k a hact) hnext with
      hgoal | ⟨hP', hlt | ⟨heq', hkeep⟩⟩
    · exact absurd hgoal (hQ _ hk')
    · exact absurd (heq ▸ hlt) (hrank _ hk' hP')
    · exact ⟨⟨hP', (hkeep j hj).2, heq'.trans heq⟩, (hkeep j hj).1⟩
  have hall : P (r.state k) ∧ Helps j (r.state k) ∧ rank (r.state k) = rank (r.state n) :=
    r.keeps (I := fun s ↦ P s ∧ Helps j s ∧ rank s = rank (r.state n)) hk ⟨hP, hj, rfl⟩
      fun l a hl hact hnext hI ↦ (hone hl hact hnext hI).1
  refine ⟨⟨hall.1, hall.2.1⟩, fun a hact ↦ ?_⟩
  have hnext := r.next k
  rw [hact, advance] at hnext
  exact (hone hk hact hnext hall).2

/-- **The rule of helpful actions.** In a run that serves each class where it is helpful, the goal
is reached. -/
theorem Helped.leadsTo [WellFoundedLT ρ] (h : Helped m G A P Q rank Helps) (hobeys : r.Obeys G)
    (hserved : ∀ j, r.Served (A j) fun s ↦ P s ∧ Helps j s) : r.LeadsTo P Q := by
  intro n hn
  induction hv : rank (r.state n) using WellFoundedLT.induction generalizing n with
  | ind v ih =>
    subst hv
    by_contra hnot
    push Not at hnot
    -- a later state with a smaller rank would reach the goal
    have hrank (l : ℕ) (hl : n ≤ l) (hP : P (r.state l)) :
        ¬rank (r.state l) < rank (r.state n) := by
      intro hlt
      obtain ⟨k, hk, hQ⟩ := ih _ hlt l hP rfl
      exact hnot k (hl.trans hk) hQ
    obtain ⟨j, hj⟩ :=
      (h.exists_helps _ (hobeys.reachable n) hn).resolve_left (hnot n le_rfl)
    have hpersists {k : ℕ} (hk : n ≤ k) := h.persists hobeys hk hn hj hnot hrank
    -- so the class stays helpful, and is served
    obtain ⟨k, a, hk, ha, hact⟩ := hserved j n fun k hk ↦ (hpersists hk).1
    exact (hpersists hk).2 a hact ha

/-- The rule for one class and a rank that it alone brings down. -/
theorem Served.leadsTo_of_obeys [WellFoundedLT ρ] {A : α → Prop} (hserved : r.Served A P)
    (hobeys : r.Obeys G) (rank : σ → ρ)
    (hstep : ∀ s a t, m.ReachableUnder G s → P s → G s a → m.step s a = some t →
      Q t ∨ P t ∧ (rank t < rank s ∨ rank t = rank s ∧ ¬A a)) : r.LeadsTo P Q := by
  have hhelped : Helped m G (fun _ : Unit ↦ A) P Q rank fun _ _ ↦ True := by
    refine ⟨fun _ _ _ ↦ Or.inr ⟨(), trivial⟩, fun s a t hs hP hG hst ↦ ?_⟩
    refine (hstep s a t hs hP hG hst).imp id (And.imp id (Or.imp id ?_))
    exact And.imp id fun hA _ _ ↦ ⟨hA, trivial⟩
  refine hhelped.leadsTo hobeys fun _ ↦ ?_
  simpa only [and_true] using hserved

theorem Served.leadsTo [WellFoundedLT ρ] {A : α → Prop} (hserved : r.Served A P) (rank : σ → ρ)
    (hstep : ∀ s a t, m.Reachable s → P s → m.step s a = some t →
      Q t ∨ P t ∧ (rank t < rank s ∨ rank t = rank s ∧ ¬A a)) : r.LeadsTo P Q :=
  hserved.leadsTo_of_obeys r.obeys_true rank fun s a t hs hP _ hst ↦ hstep s a t hs hP hst

/-! ### Runs that come to rest -/

section

variable {s : σ} {as : List α} {t : σ}

/-- The state after the first `n` actions of a list. -/
def stateAt (m : Machine σ α) (s : σ) (as : List α) (n : ℕ) : σ :=
  (m.exec s (as.take n)).getD s

theorem exists_exec_take (h : m.exec s as = some t) (n : ℕ) :
    ∃ u, m.exec s (as.take n) = some u := by
  induction as generalizing s n with
  | nil => exact ⟨s, by simp⟩
  | cons a as ih =>
    rw [exec_cons, Option.bind_eq_some_iff] at h
    obtain ⟨u, hu, h⟩ := h
    cases n with
    | zero => exact ⟨s, by simp⟩
    | succ n =>
      obtain ⟨v, hv⟩ := ih h n
      exact ⟨v, by rw [List.take_succ_cons, exec_cons, hu, Option.bind_some, hv]⟩

/-- What comes after the first action, seen from the state that it leads to. -/
theorem stateAt_cons {a : α} {u : σ} (hu : m.step s a = some u) (h : m.exec u as = some t)
    (n : ℕ) : stateAt m s (a :: as) (n + 1) = stateAt m u as n := by
  obtain ⟨v, hv⟩ := exists_exec_take h n
  simp [stateAt, exec_cons, hu, hv]

theorem advance_stateAt (h : m.exec s as = some t) (n : ℕ) :
    m.advance (stateAt m s as n) as[n]? = some (stateAt m s as (n + 1)) := by
  induction as generalizing s n with
  | nil => simp [stateAt, advance]
  | cons a as ih =>
    rw [exec_cons, Option.bind_eq_some_iff] at h
    obtain ⟨u, hu, h⟩ := h
    cases n with
    | zero =>
      rw [stateAt_cons hu h]
      simpa [stateAt, advance] using hu
    | succ n =>
      rw [stateAt_cons hu h, stateAt_cons hu h, List.getElem?_cons_succ]
      exact ih h n

/-- Execute a list of actions and rest. -/
def ofExec (hs : m.init s) (h : m.exec s as = some t) : m.Run where
  state := stateAt m s as
  act n := as[n]?
  init := by simpa [stateAt] using hs
  next := advance_stateAt h

theorem ofExec_state (hs : m.init s) (h : m.exec s as = some t) {n : ℕ} (hn : as.length ≤ n) :
    (ofExec hs h).state n = t := by
  simp [ofExec, stateAt, List.take_of_length_le hn, h]

theorem obeys_ofExec (hs : m.init s) (h : m.exec s as = some t) {G : σ → α → Prop}
    (hG : m.Along G s as) : (ofExec hs h).Obeys G := by
  intro n a hact
  change as[n]? = some a at hact
  change G (stateAt m s as n) a
  clear hs
  induction as generalizing s n with
  | nil => simp at hact
  | cons b as ih =>
    rw [exec_cons, Option.bind_eq_some_iff] at h
    obtain ⟨u, hu, h⟩ := h
    cases n with
    | zero =>
      obtain rfl : b = a := by simpa using hact
      exact hG.1
    | succ n =>
      rw [stateAt_cons hu h]
      exact ih h (hG.2 u hu) n hact

/-- A run that rests where a class of actions is not enabled is fair to it. -/
theorem stronglyFair_ofExec (hs : m.init s) (h : m.exec s as = some t) {A : α → Prop}
    (ht : ¬m.Enabled A t) : (ofExec hs h).StronglyFair A := by
  intro n hn
  obtain ⟨l, hl, henabled⟩ := hn (max n as.length) (le_max_left _ _)
  rw [ofExec_state hs h ((le_max_right _ _).trans hl)] at henabled
  exact absurd henabled ht

end

end Run

/-! ### Machines inside other machines -/

/-- A machine `m` that does what `m'` does, or leaves the state of `m'` alone. -/
structure Refines {τ β : Type*} (m : Machine σ α) (m' : Machine τ β) where
  state : σ → τ
  act : α → Option β
  init : ∀ s, m.init s → m'.init (state s)
  step : ∀ s a t, m.step s a = some t → m'.advance (state s) (act a) = some (state t)

namespace Refines

variable {τ β : Type*} {m' : Machine τ β} (f : Refines m m')

theorem reachableUnder {G : σ → α → Prop} {G' : τ → β → Prop} {s : σ} (h : m.ReachableUnder G s)
    (hG : ∀ s a b, G s a → f.act a = some b → G' (f.state s) b) :
    m'.ReachableUnder G' (f.state s) := by
  induction h with
  | init h => exact .init (f.init _ h)
  | @step s t a _ hg h ih =>
    have hstep := f.step _ _ _ h
    cases hact : f.act a with
    | none =>
      rw [hact, advance, Option.some.injEq] at hstep
      exact hstep ▸ ih
    | some b =>
      rw [hact, advance] at hstep
      exact .step ih (hG _ _ _ hg hact) hstep

theorem reachable {s : σ} (h : m.Reachable s) : m'.Reachable (f.state s) :=
  f.reachableUnder h fun _ _ _ _ _ ↦ trivial

/-- A finite run of the whole runs the inner machine. -/
theorem exec {s t : σ} {as : List α} (h : m.exec s as = some t) :
    m'.exec (f.state s) (as.filterMap f.act) = some (f.state t) := by
  induction as generalizing s with
  | nil =>
    rw [exec_nil, Option.some.injEq] at h
    simp [h]
  | cons a as ih =>
    rw [exec_cons, Option.bind_eq_some_iff] at h
    obtain ⟨u, hu, h⟩ := h
    have hstep := f.step _ _ _ hu
    cases hact : f.act a with
    | none =>
      rw [hact, advance, Option.some.injEq] at hstep
      rw [List.filterMap_cons_none hact, hstep]
      exact ih h
    | some b =>
      rw [hact, advance] at hstep
      rw [List.filterMap_cons_some hact, exec_cons, hstep]
      exact ih h

/-- The run of the inner machine. -/
def run (r : m.Run) : m'.Run where
  state n := f.state (r.state n)
  act n := (r.act n).bind f.act
  init := f.init _ r.init
  next n := by
    have hnext := r.next n
    cases hact : r.act n with
    | none =>
      rw [hact, advance, Option.some.injEq] at hnext
      simp [advance, hnext]
    | some a =>
      rw [hact, advance] at hnext
      exact f.step _ a _ hnext

/-- Fairness to a class of the outer machine is fairness to the class of the inner one that it
stands for. -/
theorem stronglyFair {r : m.Run} {A : α → Prop} {B : β → Prop} (h : r.StronglyFair A)
    (hact : ∀ a, A a → ∃ b, f.act a = some b ∧ B b)
    (henabled : ∀ s, m.Reachable s → m'.Enabled B (f.state s) → m.Enabled A s) :
    (f.run r).StronglyFair B := by
  intro n hn
  obtain ⟨k, a, hk, ha, hka⟩ := h n fun k hk ↦ by
    obtain ⟨l, hl, hen⟩ := hn k hk
    exact ⟨l, hl, henabled _ (r.reachable l) hen⟩
  obtain ⟨b, hab, hb⟩ := hact a ha
  exact ⟨k, b, hk, hb, by simp [run, hka, hab]⟩

end Refines

end Machine

/-! ### Systems -/

namespace System

open Machine Run

variable {ι σ π α ρ : Type*} [DecidableEq ι] [Preorder ρ] {S : System ι σ π α}
  {r : S.machine.Run} {A : ι × α → Prop} {P Q : Config ι σ π → Prop} {i : ι}

/-- **The rule for one agent**, whose program counter tells how far it has got. The others need only
leave the assertion alone. -/
theorem leadsTo_of_agent [WellFoundedLT ρ] (rank : π → ρ) (hserved : r.Served A P)
    (hA : ∀ x, A x → x.1 = i)
    (own : ∀ c a m p, S.machine.Reachable c → P c → S.step i c.shared (c.pc i) a = some (m, p) →
      Q ⟨m, Function.update c.pc i p⟩ ∨ P ⟨m, Function.update c.pc i p⟩ ∧
        (rank p < rank (c.pc i) ∨ rank p = rank (c.pc i) ∧ ¬A (i, a)))
    (other : ∀ c j a m p, S.machine.Reachable c → P c → j ≠ i →
      S.step j c.shared (c.pc j) a = some (m, p) →
        Q ⟨m, Function.update c.pc j p⟩ ∨ P ⟨m, Function.update c.pc j p⟩) : r.LeadsTo P Q := by
  refine hserved.leadsTo (fun c ↦ rank (c.pc i)) fun c a d hc hP hcd ↦ ?_
  obtain ⟨m, p, hs, rfl⟩ := machine_step_eq_some.mp hcd
  by_cases hi : a.1 = i
  · obtain ⟨j, a⟩ := a
    subst hi
    simpa using own c a m p hc hP hs
  · refine (other c a.1 a.2 m p hc hP hi hs).imp id fun hP' ↦ ⟨hP', Or.inr ⟨?_, ?_⟩⟩
    · simp [Ne.symm hi]
    · exact fun hAa ↦ hi (hA a hAa)

theorem machine_step {c : Config ι σ π} {a : α} {m : σ} {p : π}
    (hs : S.step i c.shared (c.pc i) a = some (m, p)) :
    S.machine.step c (i, a) = some ⟨m, Function.update c.pc i p⟩ :=
  machine_step_eq_some.mpr ⟨m, p, hs, rfl⟩

theorem unless_step (h : S.machine.Unless P Q) {c : Config ι σ π} {a : α} {m : σ} {p : π}
    (hc : S.machine.Reachable c) (hP : P c) (hs : S.step i c.shared (c.pc i) a = some (m, p)) :
    P ⟨m, Function.update c.pc i p⟩ ∨ Q ⟨m, Function.update c.pc i p⟩ :=
  h c (i, a) _ hc hP (machine_step hs)

theorem enabled_of_step {c : Config ι σ π} {a : α} (hA : A (i, a))
    (h : (S.step i c.shared (c.pc i) a).isSome) : S.machine.Enabled A c :=
  Enabled.of_isSome hA (by simpa [machine] using h)

omit [Preorder ρ] in
/-- An agent that is served where it stands takes its next step there. -/
theorem exists_turn {n : ℕ} {p : π} (hn : (r.state n).pc i = p) (hA : ∀ x, A x → x.1 = i)
    (hserved : (∀ k, n ≤ k → (r.state k).pc i = p) → ∃ k a, n ≤ k ∧ A a ∧ r.act k = some a) :
    ∃ k a m q, n ≤ k ∧ (r.state k).pc i = p ∧ r.act k = some (i, a) ∧
      S.step i (r.state k).shared p a = some (m, q) ∧
      r.state (k + 1) = ⟨m, Function.update (r.state k).pc i q⟩ := by
  by_contra hnot
  have hstays (k : ℕ) (hk : n ≤ k) : (r.state k).pc i = p := by
    refine r.keeps (I := fun c ↦ c.pc i = p) hk hn fun l a hl hact hnext hp ↦ ?_
    obtain ⟨m, q, hs, hd⟩ := machine_step_eq_some.mp hnext
    by_cases hi : a.1 = i
    · subst hi
      rw [hp] at hs
      exact absurd ⟨l, a.2, m, q, hl, hp, hact, hs, hd⟩ hnot
    · rw [hd]
      exact (Function.update_of_ne (Ne.symm hi) _ _).trans hp
  obtain ⟨k, ⟨j, a⟩, hk, ha, hact⟩ := hserved hstays
  obtain rfl : j = i := hA _ ha
  have hnext := r.next k
  rw [hact, advance] at hnext
  obtain ⟨m, q, hs, hd⟩ := machine_step_eq_some.mp hnext
  rw [show (r.state k).pc (j, a).1 = p from hstays k hk] at hs
  exact hnot ⟨k, a, m, q, hk, hstays k hk, hact, hs, hd⟩

end System

end ArcDischarge
