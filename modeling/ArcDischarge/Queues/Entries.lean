import ArcDischarge.Data.Places
import ArcDischarge.Queues.Homes

/-!
# Every entry is in one queue, or has been run

A call that schedules a task ends in one of three ways: its entry is accepted by a local queue or by
a global one, or the task is linked in its global queue already, and the entry that is there stands
for this one, too. An entry that was accepted is in one place from then on: in a queue, or among
what a worker has handed to `run`, and there once.
-/

namespace ArcDischarge.Queues

variable {θ θ' : Thread} {m m' : Shared} {ℓ ℓ' : Local} {h h' : ExecutorHandle} {e : Entry}
  {r t n : ℕ}

/-! ## The calls of a thread -/

/-- The entry that a thread is about to push to a global queue. -/
def Pc.pending : Pc → Option Entry
  | .push _ e => some e
  | _ => none

/-- What a step does about the calls of its thread. -/
inductive Effect (θ : Thread) (m : Shared) (ℓ : Local) (m' : Shared) (ℓ' : Local) : Prop where
  | none (haccepted : m'.accepted = m.accepted) (hmerged : m'.merged = m.merged)
      (hcalls : ℓ'.calls = ℓ.calls) (hpending : ℓ'.pc.pending = ℓ.pc.pending)
  | accepts {t : ℕ} (haccepted : m'.accepted = m.accepted ++ [ℓ.entry θ t])
      (hmerged : m'.merged = m.merged) (hcalls : ℓ'.calls = ℓ.calls + 1)
      (hbefore : ℓ.pc.pending = .none) (hafter : ℓ'.pc.pending = .none)
  | begins {t : ℕ} (haccepted : m'.accepted = m.accepted) (hmerged : m'.merged = m.merged)
      (hcalls : ℓ'.calls = ℓ.calls + 1) (hbefore : ℓ.pc.pending = .none)
      (hafter : ℓ'.pc.pending = some (ℓ.entry θ t))
  | pushes {e : Entry} (haccepted : m'.accepted = m.accepted ++ [e])
      (hmerged : m'.merged = m.merged) (hcalls : ℓ'.calls = ℓ.calls)
      (hbefore : ℓ.pc.pending = some e) (hafter : ℓ'.pc.pending = .none)
  | merges {e : Entry} {queue : List Entry} (haccepted : m'.accepted = m.accepted)
      (hmerged : m'.merged = m.merged ++ [(e, queue)]) (hcalls : ℓ'.calls = ℓ.calls)
      (hbefore : ℓ.pc.pending = some e) (hafter : ℓ'.pc.pending = .none)

theorem Allocates.history (hm : Allocates m r t m') :
    m'.accepted = m.accepted ∧ m'.merged = m.merged ∧ m'.globalQueue = m.globalQueue := by
  cases hm <;> exact ⟨rfl, rfl, rfl⟩

/-- A refill accepts nothing new. -/
theorem getMany_history (n : ℕ) (m : Shared) (h : ExecutorHandle) :
    (getMany n m h).1.accepted = m.accepted ∧ (getMany n m h).1.merged = m.merged := by
  refine getMany_rule (P := fun _ m' _ ↦ m'.accepted = m.accepted ∧ m'.merged = m.merged) ?_
    (fun _ _ _ hP _ ↦ hP) ⟨rfl, rfl⟩
  intro k m' h' e m'' hP hpop
  obtain ⟨rest, -, rfl⟩ := of_popFront hpop
  exact hP

theorem Move.effect (hm : Sound m) (hmove : Move θ m ℓ m' ℓ') : Effect θ m ℓ m' ℓ' := by
  have hpending {pc pc' : Pc} (hpc : ℓ.pc = pc) (hsame : pc'.pending = pc.pending) :
      pc'.pending = ℓ.pc.pending := by
    rw [hpc, hsame]
  cases hmove with
  | popLocal hpc | skipLocal hpc | pollTimeout hpc | park hpc | unpark hpc | ret _ hpc =>
    exact .none rfl rfl rfl (hpending hpc rfl)
  | getSome hpc | getNone hpc =>
    obtain ⟨haccepted, hmerged⟩ := getMany_history 4 m _
    exact .none haccepted hmerged rfl (hpending hpc rfl)
  | poisoned hr =>
    rw [hm.unpoisoned] at hr
    cases hr
  | unwinds | blockOn | reset => exact .none rfl rfl rfl rfl
  | @scheduleLocal _ _ t _ hpc halloc =>
    obtain ⟨haccepted, hmerged, -⟩ := halloc.history
    refine .accepts (t := t) ?_ hmerged rfl (by rw [hpc]; rfl) (by dsimp only; rw [hpc]; rfl)
    rw [← haccepted]
  | scheduleGlobal hpc halloc =>
    obtain ⟨haccepted, hmerged, -⟩ := halloc.history
    exact .begins haccepted hmerged rfl (by rw [hpc]; rfl) rfl
  | merge hpc => exact .merges rfl rfl rfl (by rw [hpc]; rfl) rfl
  | push hpc => exact .pushes rfl rfl rfl (by rw [hpc]; rfl) rfl

/-- The calls of a thread so far: each has been accepted, has been merged or is pending. -/
structure Numbered (m : Shared) (θ : Thread) (ℓ : Local) : Prop where
  accepted : ∀ e ∈ m.accepted, e.caller = θ → e.call < ℓ.calls
  merged : ∀ x ∈ m.merged, x.1.caller = θ → x.1.call < ℓ.calls ∧ x.1 ∉ m.accepted
  pending : ∀ e, ℓ.pc.pending = some e → e.caller = θ ∧ e.call < ℓ.calls ∧ e ∉ m.accepted ∧
    ∀ x ∈ m.merged, x.1 ≠ e
  calls : ∀ n < ℓ.calls, (∃ e ∈ m.accepted, e.caller = θ ∧ e.call = n) ∨
    (∃ x ∈ m.merged, x.1.caller = θ ∧ x.1.call = n) ∨ ∃ e, ℓ.pc.pending = some e ∧ e.call = n

/-- The entry of a call that is about to be made is not known yet. -/
theorem Numbered.not_mem (h : Numbered m θ ℓ) (t : ℕ) : ℓ.entry θ t ∉ m.accepted :=
  fun hmem ↦ Nat.lt_irrefl _ (h.accepted _ hmem rfl)

theorem Numbered.not_merged (h : Numbered m θ ℓ) (t : ℕ) : ∀ x ∈ m.merged, x.1 ≠ ℓ.entry θ t := by
  intro x hx heq
  have hlt := (h.merged x hx (by rw [heq]; rfl)).1
  rw [heq] at hlt
  exact Nat.lt_irrefl _ hlt

theorem Numbered.of_eq (h : Numbered m θ ℓ) (haccepted : m'.accepted = m.accepted)
    (hmerged : m'.merged = m.merged) (hcalls : ℓ'.calls = ℓ.calls)
    (hpending : ℓ'.pc.pending = ℓ.pc.pending) :
    Numbered m' θ ℓ' := by
  refine ⟨?_, ?_, ?_, ?_⟩
  · rw [haccepted, hcalls]
    exact h.accepted
  · rw [haccepted, hmerged, hcalls]
    exact h.merged
  · rw [haccepted, hmerged, hcalls, hpending]
    exact h.pending
  · rw [haccepted, hmerged, hcalls, hpending]
    exact h.calls

/-- A call that goes on to the global queue. -/
theorem Numbered.begins (h : Numbered m θ ℓ) (haccepted : m'.accepted = m.accepted)
    (hmerged : m'.merged = m.merged) (hcalls : ℓ'.calls = ℓ.calls + 1)
    (hbefore : ℓ.pc.pending = none) (hafter : ℓ'.pc.pending = some (ℓ.entry θ t)) :
    Numbered m' θ ℓ' := by
  refine ⟨fun e he hcaller ↦ ?_, fun x hx hcaller ↦ ?_, fun e he ↦ ?_, fun n hn ↦ ?_⟩
  · rw [haccepted] at he
    rw [hcalls]
    exact Nat.lt_succ_of_lt (h.accepted e he hcaller)
  · rw [hmerged] at hx
    rw [hcalls, haccepted]
    have hold := h.merged x hx hcaller
    exact ⟨Nat.lt_succ_of_lt hold.1, hold.2⟩
  · rw [hafter, Option.some.injEq] at he
    subst he
    rw [hcalls, haccepted, hmerged]
    exact ⟨rfl, Nat.lt_succ_self _, h.not_mem t, h.not_merged t⟩
  · rw [hcalls] at hn
    rw [haccepted, hmerged, hafter]
    by_cases hlast : n = ℓ.calls
    · exact .inr (.inr ⟨_, rfl, hlast.symm⟩)
    · rcases h.calls n (by omega) with haccept | hmerge | ⟨e, he, -⟩
      · exact .inl haccept
      · exact .inr (.inl hmerge)
      · rw [hbefore] at he
        cases he

/-- A pending entry is accepted. -/
theorem Numbered.pushes (h : Numbered m θ ℓ) (haccepted : m'.accepted = m.accepted ++ [e])
    (hmerged : m'.merged = m.merged) (hcalls : ℓ'.calls = ℓ.calls)
    (hbefore : ℓ.pc.pending = some e) (hafter : ℓ'.pc.pending = none) :
    Numbered m' θ ℓ' := by
  obtain ⟨hcaller, hcall, -, hnot⟩ := h.pending e hbefore
  refine ⟨fun e' he' hcaller' ↦ ?_, fun x hx hcaller' ↦ ?_, fun e' he' ↦ ?_, fun n hn ↦ ?_⟩
  · rw [haccepted, List.mem_append, List.mem_singleton] at he'
    rw [hcalls]
    rcases he' with he' | rfl
    · exact h.accepted e' he' hcaller'
    · exact hcall
  · rw [hmerged] at hx
    rw [hcalls, haccepted, List.mem_append, List.mem_singleton, not_or]
    have hold := h.merged x hx hcaller'
    exact ⟨hold.1, hold.2, hnot x hx⟩
  · rw [hafter] at he'
    cases he'
  · rw [hcalls] at hn
    rw [haccepted, hmerged]
    rcases h.calls n hn with ⟨e', he', hcall'⟩ | hmerge | ⟨e', he', hcall'⟩
    · exact .inl ⟨e', List.mem_append_left _ he', hcall'⟩
    · exact .inr (.inl hmerge)
    · rw [hbefore, Option.some.injEq] at he'
      subst he'
      exact .inl ⟨e, List.mem_append_right _ List.mem_cons_self, hcaller, hcall'⟩

/-- A call whose entry is accepted at once begins and pushes in one step. -/
theorem Numbered.accepts (h : Numbered m θ ℓ)
    (haccepted : m'.accepted = m.accepted ++ [ℓ.entry θ t])
    (hmerged : m'.merged = m.merged) (hcalls : ℓ'.calls = ℓ.calls + 1)
    (hbefore : ℓ.pc.pending = none) (hafter : ℓ'.pc.pending = none) :
    Numbered m' θ ℓ' := by
  have hbegun : Numbered m θ { ℓ with calls := ℓ.calls + 1, pc := .push none (ℓ.entry θ t) } :=
    h.begins rfl rfl rfl hbefore rfl
  exact hbegun.pushes haccepted hmerged hcalls rfl hafter

/-- A pending entry is merged. -/
theorem Numbered.merges (h : Numbered m θ ℓ) {queue : List Entry}
    (haccepted : m'.accepted = m.accepted) (hmerged : m'.merged = m.merged ++ [(e, queue)])
    (hcalls : ℓ'.calls = ℓ.calls) (hbefore : ℓ.pc.pending = some e)
    (hafter : ℓ'.pc.pending = none) :
    Numbered m' θ ℓ' := by
  obtain ⟨hcaller, hcall, hnot, -⟩ := h.pending e hbefore
  refine ⟨fun e' he' hcaller' ↦ ?_, fun x hx hcaller' ↦ ?_, fun e' he' ↦ ?_, fun n hn ↦ ?_⟩
  · rw [haccepted] at he'
    rw [hcalls]
    exact h.accepted e' he' hcaller'
  · rw [hmerged, List.mem_append, List.mem_singleton] at hx
    rw [hcalls, haccepted]
    rcases hx with hx | rfl
    · exact h.merged x hx hcaller'
    · exact ⟨hcall, hnot⟩
  · rw [hafter] at he'
    cases he'
  · rw [hcalls] at hn
    rw [haccepted, hmerged]
    rcases h.calls n hn with haccept | ⟨x, hx, hcall'⟩ | ⟨e', he', hcall'⟩
    · exact .inl haccept
    · exact .inr (.inl ⟨x, List.mem_append_left _ hx, hcall'⟩)
    · rw [hbefore, Option.some.injEq] at he'
      subst he'
      exact .inr (.inl ⟨_, List.mem_append_right _ List.mem_cons_self, hcaller, hcall'⟩)

theorem Numbered.own (h : Numbered m θ ℓ) (heffect : Effect θ m ℓ m' ℓ') : Numbered m' θ ℓ' := by
  cases heffect with
  | none haccepted hmerged hcalls hpending => exact h.of_eq haccepted hmerged hcalls hpending
  | accepts haccepted hmerged hcalls hbefore hafter =>
    exact h.accepts haccepted hmerged hcalls hbefore hafter
  | begins haccepted hmerged hcalls hbefore hafter =>
    exact h.begins haccepted hmerged hcalls hbefore hafter
  | pushes haccepted hmerged hcalls hbefore hafter =>
    exact h.pushes haccepted hmerged hcalls hbefore hafter
  | merges haccepted hmerged hcalls hbefore hafter =>
    exact h.merges haccepted hmerged hcalls hbefore hafter

/-- Calls of other threads do not count. -/
theorem Numbered.mono (h : Numbered m θ ℓ)
    (haccepted : ∀ e ∈ m'.accepted, e.caller = θ → e ∈ m.accepted)
    (hmerged : ∀ x ∈ m'.merged, x.1.caller = θ → x ∈ m.merged)
    (haccepted' : ∀ e ∈ m.accepted, e ∈ m'.accepted)
    (hmerged' : ∀ x ∈ m.merged, x ∈ m'.merged) : Numbered m' θ ℓ := by
  refine ⟨fun e he hcaller ↦ h.accepted e (haccepted e he hcaller) hcaller,
    fun x hx hcaller ↦ ?_, fun e he ↦ ?_, fun n hn ↦ ?_⟩
  · have hold := h.merged x (hmerged x hx hcaller) hcaller
    exact ⟨hold.1, fun hmem ↦ hold.2 (haccepted _ hmem hcaller)⟩
  · obtain ⟨hcaller, hcall, hnot, hne⟩ := h.pending e he
    refine ⟨hcaller, hcall, fun hmem ↦ hnot (haccepted e hmem hcaller), fun x hx heq ↦ ?_⟩
    exact hne x (hmerged x hx (heq ▸ hcaller)) heq
  · rcases h.calls n hn with ⟨e, he, hcall⟩ | ⟨x, hx, hcall⟩ | hpending
    · exact .inl ⟨e, haccepted' e he, hcall⟩
    · exact .inr (.inl ⟨x, hmerged' x hx, hcall⟩)
    · exact .inr (.inr hpending)

theorem Numbered.other {ℓ₁ : Local} (hi : Numbered m θ ℓ) (h : Numbered m θ' ℓ₁) (hne : θ' ≠ θ)
    (heffect : Effect θ m ℓ m' ℓ') : Numbered m' θ' ℓ₁ := by
  have happend {e : Entry} (hcaller : e.caller = θ) {e' : Entry} (he' : e' ∈ m.accepted ++ [e])
      (hcaller' : e'.caller = θ') : e' ∈ m.accepted := by
    rw [List.mem_append, List.mem_singleton] at he'
    rcases he' with he' | rfl
    · exact he'
    · exact absurd (hcaller'.symm.trans hcaller) hne
  cases heffect with
  | none haccepted hmerged | begins haccepted hmerged =>
    refine h.mono ?_ ?_ ?_ ?_
    · exact fun e he _ ↦ haccepted ▸ he
    · exact fun x hx _ ↦ hmerged ▸ hx
    · exact fun e he ↦ haccepted.symm ▸ he
    · exact fun x hx ↦ hmerged.symm ▸ hx
  | accepts haccepted hmerged =>
    refine h.mono ?_ ?_ ?_ ?_
    · exact fun e he hcaller ↦ happend rfl (haccepted ▸ he) hcaller
    · exact fun x hx _ ↦ hmerged ▸ hx
    · exact fun e he ↦ haccepted.symm ▸ List.mem_append_left _ he
    · exact fun x hx ↦ hmerged.symm ▸ hx
  | pushes haccepted hmerged _ hbefore =>
    refine h.mono ?_ ?_ ?_ ?_
    · exact fun e he hcaller ↦ happend (hi.pending _ hbefore).1 (haccepted ▸ he) hcaller
    · exact fun x hx _ ↦ hmerged ▸ hx
    · exact fun e he ↦ haccepted.symm ▸ List.mem_append_left _ he
    · exact fun x hx ↦ hmerged.symm ▸ hx
  | merges haccepted hmerged _ hbefore =>
    refine h.mono (fun e he _ ↦ haccepted ▸ he) (fun x hx hcaller ↦ ?_)
      (fun e he ↦ haccepted.symm ▸ he) fun x hx ↦ hmerged.symm ▸ List.mem_append_left _ hx
    rw [hmerged, List.mem_append, List.mem_singleton] at hx
    rcases hx with hx | rfl
    · exact hx
    · exact absurd (hcaller.symm.trans (hi.pending _ hbefore).1) hne

theorem numbered_of_reachable {capacity : ℕ} {c : State} (hc : (machine capacity).Reachable c) :
    ∀ θ, Numbered c.shared θ (c.pc θ) := by
  refine (System.holds_of_reachableUnder (J := fun _ ↦ True) (I := fun θ m ℓ ↦ Numbered m θ ℓ) hc
    ?_ ?_ ?_).2
  · rintro c rfl
    refine ⟨trivial, fun θ ↦ ?_⟩
    cases θ <;> exact ⟨by simp [State.new], by simp [State.new], by simp [State.new, Pc.pending],
      by simp [State.new]⟩
  · intro c θ a m ℓ hr hc _ hstep
    have heffect := (move_of_step hstep).effect (holds_of_reachable hr).1
    exact ⟨trivial, (hc.2 θ).own heffect⟩
  · intro c θ a m ℓ hr hc _ hstep θ' hne
    have heffect := (move_of_step hstep).effect (holds_of_reachable hr).1
    exact (hc.2 θ).other (hc.2 θ') hne heffect

end ArcDischarge.Queues
