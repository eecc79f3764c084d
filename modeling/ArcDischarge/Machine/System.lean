import ArcDischarge.Machine.Basic

/-!
# Agents over shared memory

The concurrent programs of this development have one shape: any number of agents, each with its own
program counter, take atomic steps on a shared memory, one agent at a time and in any order. A
`System` gives the step of one agent; `System.machine` is the interleaving of all of them.

The proof rule is the Owicki–Gries one. An assertion about the shared memory and, for each agent, an
assertion about the memory and that agent's counter are invariant when the agent that moves keeps
the memory's assertion and its own (`own`), and does not disturb the assertion of any other agent
(`other`). Mutual exclusion needs no assertion about pairs of agents: a lock records its holder, and
"an agent inside the critical section is the recorded holder" mentions one agent only.
-/

namespace ArcDischarge

/-- A state of a system: the shared memory and the program counter of each agent. -/
structure Config (ι σ π : Type*) where
  /-- What every agent can read and write. -/
  shared : σ
  /-- Where each agent stands, with its private data. -/
  pc : ι → π

/-- Agents `ι` over a shared memory `σ`, each with a program counter in `π`. -/
structure System (ι σ π α : Type*) where
  /-- The configurations a run may start in. -/
  init : Config ι σ π → Prop
  /-- One atomic step of one agent; the label resolves what the environment decides. -/
  step : ι → σ → π → α → Option (σ × π)

namespace System

variable {ι σ π α : Type*} [DecidableEq ι]

/-- The interleaving of all agents: an action names the agent that moves and its label. -/
def machine (S : System ι σ π α) : Machine (Config ι σ π) (ι × α) where
  init := S.init
  step c a := (S.step a.1 c.shared (c.pc a.1) a.2).map fun r ↦
    ⟨r.1, Function.update c.pc a.1 r.2⟩

variable {S : System ι σ π α}

/-- The inversion of a machine step: the agent that moved, and the frame. -/
theorem machine_step_eq_some {c d : Config ι σ π} {a : ι × α} :
    S.machine.step c a = some d ↔
      ∃ m p, S.step a.1 c.shared (c.pc a.1) a.2 = some (m, p) ∧
        d = ⟨m, Function.update c.pc a.1 p⟩ := by
  simp only [machine, Option.map_eq_some_iff, Prod.exists]
  exact exists₂_congr fun _ _ ↦ and_congr_right fun _ ↦ eq_comm

/-- An agent that does not move in a run stays where it is. -/
theorem exec_pc {c d : Config ι σ π} {as : List (ι × α)} {i : ι} (hi : i ∉ as.map Prod.fst)
    (h : S.machine.exec c as = some d) : d.pc i = c.pc i := by
  induction as generalizing c with
  | nil =>
    rw [Machine.exec_nil, Option.some.injEq] at h
    rw [h]
  | cons a as ih =>
    rw [List.map_cons, List.mem_cons, not_or] at hi
    rw [Machine.exec_cons, Option.bind_eq_some_iff] at h
    obtain ⟨u, hu, h⟩ := h
    obtain ⟨m, p, -, rfl⟩ := machine_step_eq_some.mp hu
    rw [ih hi.2 h]
    exact Function.update_of_ne hi.1 _ _

/-- What holds of every agent after a run: it is enough to look at those that moved, and at the
others in the first state. -/
theorem forall_pc_of_exec {c d : Config ι σ π} {as : List (ι × α)} {Q : ι → π → Prop}
    (h : S.machine.exec c as = some d) (hinit : ∀ i, i ∉ as.map Prod.fst → Q i (c.pc i))
    (hrun : ∀ a ∈ as, Q a.1 (d.pc a.1)) (i : ι) : Q i (d.pc i) := by
  by_cases hi : i ∈ as.map Prod.fst
  · obtain ⟨a, ha, rfl⟩ := List.mem_map.mp hi
    exact hrun a ha
  · rw [exec_pc hi h]
    exact hinit i hi

/-- The invariant rule for a system: a step is a step of one agent. -/
theorem invariant {G : Config ι σ π → ι × α → Prop} {I : Config ι σ π → Prop} {c : Config ι σ π}
    (h : S.machine.ReachableUnder G c) (hinit : ∀ c, S.init c → I c)
    (hstep : ∀ c i a m p, S.machine.ReachableUnder G c → I c → G c (i, a) →
      S.step i c.shared (c.pc i) a = some (m, p) → I ⟨m, Function.update c.pc i p⟩) : I c := by
  refine h.invariant hinit fun c a d hc hI hG hcd ↦ ?_
  obtain ⟨m, p, hs, rfl⟩ := machine_step_eq_some.mp hcd
  exact hstep c a.1 a.2 m p hc hI hG hs

/-- An assertion about the shared memory together with one about each agent. -/
def Holds (J : σ → Prop) (I : ι → σ → π → Prop) (c : Config ι σ π) : Prop :=
  J c.shared ∧ ∀ i, I i c.shared (c.pc i)

omit [DecidableEq ι] in
theorem Holds.agent {J : σ → Prop} {I : ι → σ → π → Prop} {c : Config ι σ π} (h : Holds J I c)
    {i : ι} {p : π} (hp : c.pc i = p) : I i c.shared p := hp ▸ h.2 i

/-- **The Owicki–Gries rule.** The agent that moves keeps the memory's assertion and its own, and
disturbs nobody else's. -/
theorem holds_of_reachableUnder {G : Config ι σ π → ι × α → Prop} {J : σ → Prop}
    {I : ι → σ → π → Prop} {c : Config ι σ π} (h : S.machine.ReachableUnder G c)
    (hinit : ∀ c, S.init c → Holds J I c)
    (own : ∀ c i a m p, S.machine.ReachableUnder G c → Holds J I c → G c (i, a) →
      S.step i c.shared (c.pc i) a = some (m, p) → J m ∧ I i m p)
    (other : ∀ c i a m p, S.machine.ReachableUnder G c → Holds J I c → G c (i, a) →
      S.step i c.shared (c.pc i) a = some (m, p) → ∀ j, j ≠ i → I j m (c.pc j)) :
    Holds J I c := by
  refine invariant h hinit fun c i a m p hc hI hG hs ↦ ?_
  have hown := own c i a m p hc hI hG hs
  refine ⟨hown.1, fun j ↦ ?_⟩
  by_cases hj : j = i
  · subst hj
    simpa using hown.2
  · simpa [hj] using other c i a m p hc hI hG hs j hj

end System

end ArcDischarge
