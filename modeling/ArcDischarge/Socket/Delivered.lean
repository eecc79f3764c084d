import ArcDischarge.Socket.Model

/-!
# Readiness is not lost

A direction that is ready is known to be: the selector still has to report it, or the driver is
about to set it, or it is set in the word. The selector says it only once, so the step that matters
is a clear: it must not remove what has come since the operation that it answers found nothing. If
something came, then it is either on its way, or it is in the log behind the capture of the event,
and the tick turns the clear away.
-/

namespace ArcDischarge.Io

/-- Within `set_readiness` for an event with a flag of `mask`. -/
def Pc.Carries (mask : Ready) : Pc → Prop
  | .setLoad ready | .setExchange ready _ => ready.Meets mask
  | _ => False

/-- The event that `clear_readiness` has been called with. -/
def Pc.clears? : Pc → Option Captured
  | .clearLoad captured | .clearExchange captured _ => some captured
  | _ => none

variable {interest : ℕ → Interest} {m m' : Shared} {p p' : Pc} {a : Label} {i : Agent}
  {mask : Ready}

/-- What the driver carries, it carries on or puts into the log. -/
theorem Move.carries (h : p.Carries mask) (hmove : Move interest m .driver p a m' p') :
    p'.Carries mask ∨ ∃ ready, ready.Meets mask ∧ m'.log = m.log ++ [.set m.turn ready] := by
  cases hmove with
  | setLoad | setRetry => exact Or.inl h
  | set => exact Or.inr ⟨_, h, rfl⟩
  | _ => exact h.elim

/-- A call of `clear_readiness` keeps its event. -/
theorem Move.clears {captured : Captured} (hmove : Move interest m i p a m' p')
    (h : p'.clears? = some captured) :
    p.clears? = some captured ∨ ∃ n, a = .clearReadiness n ∧ m.held[n]? = some captured := by
  cases hmove with
  | clearReadiness hheld =>
    cases h
    exact Or.inr ⟨_, rfl, hheld⟩
  | clearLoad | clearRetry => exact Or.inl h
  | _ => cases h

/-- What a step does to the log. -/
theorem Move.log (hmove : Move interest m i p a m' p') : m'.log = m.log ∨
    (i = .driver ∧ ∃ ready, m'.log = m.log ++ [.set m.turn ready]) ∨
      ∃ k captured, i = .thread k ∧ a = .step ∧ p = .clearExchange captured m.word ∧
        (Tick.clear captured.event.tick).isOld m.word = false ∧
        m'.log = m.log ++ [.clear captured.event.maskNoClosed] := by
  cases hmove with
  | set => exact Or.inr (Or.inl ⟨rfl, _, rfl⟩)
  | @clear k captured _ hpass =>
    exact Or.inr (Or.inr ⟨k, captured, rfl, rfl, rfl, isOld_eq_false_of_pass hpass, rfl⟩)
  | _ => exact Or.inl rfl

theorem captured?_of_clears? {captured : Captured} (h : p.clears? = some captured) :
    p.captured? = some captured := by
  unfold Pc.clears? at h
  split at h <;> first | exact h | cases h

theorem Ready.Meets.mono {r q : Ready} (h : r.Meets mask) (hrq : ∀ b, b ∈ r → b ∈ q) :
    q.Meets mask := by
  obtain ⟨b, hb, hmask⟩ := h
  exact ⟨b, hrq b hb, hmask⟩

/-- A clear removes nothing but what its event has. -/
theorem ReadyEvent.mem_of_mem_maskNoClosed {event : ReadyEvent} {b : ℕ}
    (h : b ∈ event.maskNoClosed) : b ∈ event.ready := by
  rw [maskNoClosed, Ready.mem_sub, Ready.mem_sub] at h
  exact h.1.1

end ArcDischarge.Io

namespace ArcDischarge.Socket

open Io (Agent Captured Direction Event Interest Label Ready)

/-- The readiness of direction `d` is still to be set in the word. -/
def Announced (s : State) (d : Direction) : Prop :=
  s.kernel.edge d = true ∨ (s.io.pc .driver).Carries d.mask

/-- An event has been applied since `captured`. -/
def Newer (log : List Io.Entry) (captured : Captured) : Prop :=
  ∃ turn ready, .set turn ready ∈ log.drop captured.since

structure Delivered (s : State) : Prop where
  word : ∀ d, s.kernel.ready d = true → Announced s d ∨ (Io.readiness s.io.shared.log).Meets d.mask
  clearing : ∀ k captured, (s.io.pc (.thread k)).clears? = some captured → ∀ d,
    s.kernel.ready d = true → captured.event.ready.Meets d.mask →
      Announced s d ∨ Newer s.io.shared.log captured

variable {interest : ℕ → Interest} {s t : State} {a : Action}

theorem Newer.append {log : List Io.Entry} {captured : Captured} (h : Newer log captured)
    (rest : List Io.Entry) : Newer (log ++ rest) captured := by
  obtain ⟨turn, ready, hmem⟩ := h
  refine ⟨turn, ready, ?_⟩
  rw [List.drop_append]
  exact List.mem_append_left _ hmem

theorem newer_append_set {log : List Io.Entry} {captured : Captured} {turn : ℕ} {ready : Ready}
    (h : captured.since ≤ log.length) : Newer (log ++ [.set turn ready]) captured := by
  refine ⟨turn, ready, ?_⟩
  rw [List.drop_append_of_le_length h]
  exact List.mem_append_right _ (List.mem_singleton_self _)

/-- What is announced stays so, or the event comes into the log. -/
theorem Announced.io {d : Direction} {i : Agent} {b : Label} {c : Io.State} (h : Announced s d)
    (hc : (Io.machine interest).step s.io (i, b) = some c) : Announced ⟨c, s.kernel⟩ d ∨
      ∃ turn ready, ready.Meets d.mask ∧ c.shared.log = s.io.shared.log ++ [.set turn ready] := by
  rcases h with hedge | hcarries
  · exact Or.inl (Or.inl hedge)
  · obtain ⟨m, p, hmove, rfl⟩ := exists_move hc
    by_cases hi : i = .driver
    · subst hi
      rcases hmove.carries hcarries with hp | ⟨ready, hmeets, hlog⟩
      · exact Or.inl (Or.inr (by simpa using hp))
      · exact Or.inr ⟨_, ready, hmeets, hlog⟩
    · exact Or.inl (Or.inr (by simpa [Ne.symm hi] using hcarries))

/-- The events of a turn are those that the selector has reported. -/
theorem Announced.turn {d : Direction} {event : Option Event} {c : Io.State} (h : Announced s d)
    (hc : (Io.machine interest).step s.io (.driver, .turn event) = some c) :
    Announced ⟨c, s.kernel.report event⟩ d := by
  obtain ⟨m, p, hmove, rfl⟩ := exists_move hc
  generalize hpc : s.io.pc .driver = q at hmove
  have hedge : s.kernel.edge d = true := by
    refine h.resolve_right fun hcarries ↦ ?_
    rw [hpc] at hcarries
    cases hmove <;> exact hcarries
  cases hmove with
  | turn => exact Or.inl (by simpa [Kernel.report] using hedge)
  | @turnEvent e =>
    by_cases hwoken : d.wokenBy (.fromMio e) = true
    · refine Or.inr ?_
      simpa [Io.Pc.Carries] using Direction.wokenBy_iff.mp hwoken
    · exact Or.inl (by simpa [Kernel.report, hwoken] using hedge)

/-- A step that leaves the slot alone: the socket is less ready, or more is announced. -/
theorem Delivered.of_kernel {κ : Kernel} (h : Delivered s)
    (hready : ∀ d, κ.ready d = true → s.kernel.ready d = true ∨ κ.edge d = true)
    (hedge : ∀ d, s.kernel.edge d = true → κ.edge d = true) : Delivered ⟨s.io, κ⟩ := by
  have hannounced (d : Direction) (hd : Announced s d) : Announced ⟨s.io, κ⟩ d :=
    hd.imp_left (hedge d)
  refine ⟨fun d hd ↦ ?_, fun k captured hk d hd hmeets ↦ ?_⟩
  · rcases hready d hd with hs | hnew
    · exact (h.word d hs).imp_left (hannounced d)
    · exact Or.inl (Or.inl hnew)
  · rcases hready d hd with hs | hnew
    · exact (h.clearing k captured hk d hs hmeets).imp_left (hannounced d)
    · exact Or.inl (Or.inl hnew)

/-- A step after which the log is the same and what was announced still is. -/
theorem Delivered.of_log_eq (h : Delivered s) (hlog : t.io.shared.log = s.io.shared.log)
    (hready : ∀ d, t.kernel.ready d = true → s.kernel.ready d = true)
    (hannounced : ∀ d, Announced s d → Announced t d)
    (hclears : ∀ k captured, (t.io.pc (.thread k)).clears? = some captured →
      (s.io.pc (.thread k)).clears? = some captured ∨
        ∀ d, captured.event.ready.Meets d.mask → t.kernel.ready d = false) : Delivered t := by
  refine ⟨fun d hd ↦ ?_, fun k captured hk d hd hmeets ↦ ?_⟩
  · rw [hlog]
    exact (h.word d (hready d hd)).imp_left (hannounced d)
  · rw [hlog]
    rcases hclears k captured hk with hold | hnew
    · exact (h.clearing k captured hold d (hready d hd) hmeets).imp_left (hannounced d)
    · rw [hnew d hmeets] at hd
      cases hd

/-- The calls of `clear_readiness` after a step. -/
theorem clears_of_update {i : Agent} {b : Label} {m : Io.Shared} {p : Io.Pc} {k : ℕ}
    {captured : Captured} (hmove : Io.Move interest s.io.shared i (s.io.pc i) b m p)
    (h : (Function.update s.io.pc i p (.thread k)).clears? = some captured) :
    (s.io.pc (.thread k)).clears? = some captured ∨
      ∃ n, b = .clearReadiness n ∧ s.io.shared.held[n]? = some captured := by
  by_cases hi : Agent.thread k = i
  · subst hi
    rw [Function.update_self] at h
    exact hmove.clears h
  · rw [Function.update_of_ne hi] at h
    exact Or.inl h

theorem Delivered.exhaust {k n : ℕ} {captured : Captured} {c : Io.State} (h : Delivered s)
    (hheld : s.io.shared.held[n]? = some captured)
    (hc : (Io.machine interest).step s.io (.thread k, .clearReadiness n) = some c) :
    Delivered ⟨c, s.kernel.exhaust captured.event.ready⟩ := by
  have hannounced (d : Direction) (hd : Announced s d) :
      Announced ⟨c, s.kernel.exhaust captured.event.ready⟩ d := by
    obtain ⟨m, p, -, rfl⟩ := exists_move hc
    exact hd.imp_right fun hp ↦ by simpa using hp
  obtain ⟨m, p, hmove, rfl⟩ := exists_move hc
  refine h.of_log_eq ?_ (fun d hd ↦ ?_) hannounced fun k' captured' hk' ↦ ?_
  · generalize s.io.pc (.thread k) = q at hmove
    cases hmove
    rfl
  · rw [Kernel.exhaust, Bool.and_eq_true] at hd
    exact hd.1
  · refine (clears_of_update hmove hk').imp_right fun ⟨n', heq, hheld'⟩ d hmeets ↦ ?_
    cases heq
    rw [hheld, Option.some.injEq] at hheld'
    subst hheld'
    simp [Kernel.exhaust, Direction.wokenBy_iff.mpr hmeets]

theorem Delivered.turn {event : Option Event} {c : Io.State} (h : Delivered s)
    (hc : (Io.machine interest).step s.io (.driver, .turn event) = some c) :
    Delivered ⟨c, s.kernel.report event⟩ := by
  refine h.of_log_eq ?_ (fun d hd ↦ hd) (fun d hd ↦ hd.turn hc) fun k captured hk ↦ ?_
  · obtain ⟨m, p, hmove, rfl⟩ := exists_move hc
    generalize s.io.pc .driver = q at hmove
    cases hmove <;> rfl
  · obtain ⟨m, p, hmove, rfl⟩ := exists_move hc
    exact Or.inl (by simpa using hk)

/-- An event with a flag of the direction goes through. -/
theorem readiness_meets_append_set {log : List Io.Entry} {turn : ℕ} {ready mask : Ready}
    (h : ready.Meets mask) : (Io.readiness (log ++ [.set turn ready])).Meets mask := by
  rw [Io.readiness_append_singleton]
  exact h.mono fun b hb ↦ Io.Ready.mem_or.mpr (Or.inr hb)

/-- A clear that goes through removes nothing that is ready: either it is not about the direction,
or nothing has come since its operation. -/
theorem Delivered.meets_clear {k : ℕ} {captured : Captured} {d : Direction} (h : Delivered s)
    (hcoherent : System.Holds Io.Coherent Io.Ok s.io)
    (hpc : s.io.pc (.thread k) = .clearExchange captured s.io.shared.word)
    (hold : (Io.Tick.clear captured.event.tick).isOld s.io.shared.word = false)
    (hG : Io.NotLapped s.io (.thread k, .step)) (hd : s.kernel.ready d = true)
    (hmeets : (Io.readiness s.io.shared.log).Meets d.mask) : Announced s d ∨
      (Io.readiness (s.io.shared.log ++ [.clear captured.event.maskNoClosed])).Meets d.mask := by
  by_cases hevent : captured.event.ready.Meets d.mask
  · refine Or.inl ((h.clearing k captured (by rw [hpc]; rfl) d hd hevent).resolve_right ?_)
    rintro ⟨turn, ready, hnewer⟩
    have hclear : Io.clearing s.io (.thread k, .step) = some captured := by
      simp [Io.clearing, hpc, hold]
    exact hG captured hclear (Io.lapped_of_clears hcoherent hclear hnewer)
  · obtain ⟨b, hb, hmask⟩ := hmeets
    refine Or.inr ⟨b, ?_, hmask⟩
    rw [Io.readiness_append_singleton]
    refine Io.Ready.mem_sub.mpr ⟨hb, fun hremoved ↦ hevent ⟨b, ?_, hmask⟩⟩
    exact Io.ReadyEvent.mem_of_mem_maskNoClosed hremoved

theorem Delivered.io {i : Agent} {b : Label} {c : Io.State} (h : Delivered s)
    (hcoherent : System.Holds Io.Coherent Io.Ok s.io) (hb : ofRuntime b = true)
    (hG : Io.NotLapped s.io (i, b)) (hc : (Io.machine interest).step s.io (i, b) = some c) :
    Delivered ⟨c, s.kernel⟩ := by
  have hannounced (d : Direction) (hd : Announced s d) :
      Announced ⟨c, s.kernel⟩ d ∨ (Io.readiness c.shared.log).Meets d.mask := by
    refine (hd.io hc).imp_right fun ⟨turn, ready, hmeets, hlog⟩ ↦ ?_
    rw [hlog]
    exact readiness_meets_append_set hmeets
  obtain ⟨m, p, hmove, rfl⟩ := exists_move hc
  refine ⟨fun d hd ↦ ?_, fun k captured hk d hd hmeets ↦ ?_⟩
  · rcases h.word d hd with hann | hmeets
    · exact hannounced d hann
    rcases hmove.log with hlog | ⟨-, ready, hlog⟩ | ⟨k, captured, rfl, rfl, hpc, hold, hlog⟩
    · exact Or.inr (by rwa [hlog])
    · refine Or.inr ?_
      rw [hlog, Io.readiness_append_singleton]
      exact hmeets.mono fun b hb ↦ Io.Ready.mem_or.mpr (Or.inl hb)
    · rcases h.meets_clear hcoherent hpc hold hG hd hmeets with hann | hmeets
      · exact hannounced d hann
      · exact Or.inr (by rwa [hlog])
  · rcases clears_of_update hmove hk with hk | ⟨n, rfl, -⟩
    · rcases h.clearing k captured hk d hd hmeets with hann | hnewer
      · refine (hann.io hc).imp_right fun ⟨turn, ready, _, hlog⟩ ↦ ?_
        have hof := (hcoherent.2 (.thread k)).captured captured (Io.captured?_of_clears? hk)
        rw [hlog]
        exact newer_append_set hof.le
      · obtain ⟨rest, hrest⟩ := Io.log_of_move hmove
        refine Or.inr ?_
        rw [hrest]
        exact hnewer.append rest
    · cases hb

theorem reachableUnder_io (h : (machine interest).ReachableUnder NotLapped s) :
    (Io.machine interest).ReachableUnder Io.NotLapped s.io :=
  (refines interest).reachableUnder h fun _ _ _ hG hact ↦ hG _ hact

theorem delivered_of_reachableUnder (h : (machine interest).ReachableUnder NotLapped s) :
    Delivered s := by
  refine h.invariant (fun s hinit ↦ ?_) fun s a t hreach hs hG hstep ↦ ?_
  · obtain ⟨⟨word, slot, turn, -, hio⟩, hedge⟩ := hinit
    refine ⟨fun d hd ↦ Or.inl (Or.inl (hedge d hd)), fun k captured hk ↦ ?_⟩
    rw [hio] at hk
    cases hk
  · cases move_of_step hstep with
    | io ha hc =>
      exact hs.io (Io.coherent_of_reachableUnder (reachableUnder_io hreach)) ha (hG _ rfl) hc
    | turn hc => exact hs.turn hc
    | exhaust hheld hc => exact hs.exhaust hheld hc
    | @take d =>
      refine hs.of_kernel (fun d' hd' ↦ Or.inl ?_) fun _ hedge ↦ hedge
      by_cases hdd : d' = d
      · simp [Kernel.take, hdd] at hd'
      · simpa [Kernel.take, hdd] using hd'
    | @arrive d =>
      refine hs.of_kernel (fun d' hd' ↦ ?_) fun d' hedge ↦ ?_
      · by_cases hdd : d' = d
        · exact Or.inr (by simp [Kernel.arrive, hdd])
        · exact Or.inl (by simpa [Kernel.arrive, hdd] using hd')
      · by_cases hdd : d' = d
        · simp [Kernel.arrive, hdd]
        · simpa [Kernel.arrive, hdd] using hedge

end ArcDischarge.Socket
