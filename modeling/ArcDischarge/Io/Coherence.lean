import ArcDischarge.Io.Moves

/-!
# The word, its log and the captured events

The word of a slot holds what the exchanges on it amount to; the driver's tick is the last byte of
its turn number; the events are in order of their turns, at most one in a turn; and the tick of
every `ReadyEvent` is that of the last event before the load it comes from, wherever it is kept.
-/

namespace ArcDischarge.Io

/-- `captured` comes from a load after the first `since` exchanges. -/
structure Captured.Of (captured : Captured) (log : List Entry) : Prop where
  le : captured.since ≤ log.length
  tick : captured.event.tick = BitVec.ofNat 8 (lastTurn (log.take captured.since))

/-- The `ReadyEvent` an agent is about to return or to clear. -/
def Pc.captured? : Pc → Option Captured
  | .unlockReady captured | .clearLoad captured | .clearExchange captured _ => some captured
  | .callUnlock captured => captured
  | _ => none

/-- Within `set_readiness` for an event of the current turn. -/
def Pc.isSetting : Pc → Bool
  | .setLoad _ | .setExchange _ _ => true
  | _ => false

structure Coherent (m : Shared) : Prop where
  word : m.word.Holds m.log
  tick : m.tick = BitVec.ofNat 8 m.turn
  sorted : (turns m.log).Pairwise (· < ·)
  pos : ∀ t ∈ turns m.log, 0 < t
  le : ∀ t ∈ turns m.log, t ≤ m.turn
  held : ∀ captured ∈ m.held, captured.Of m.log

structure Ok (i : Agent) (m : Shared) (p : Pc) : Prop where
  captured : ∀ captured, p.captured? = some captured → captured.Of m.log
  /-- The current turn has had no event yet. -/
  setting : i = .driver → p.isSetting = true → 0 < m.turn ∧ ∀ t ∈ turns m.log, t < m.turn

variable {interest : ℕ → Interest} {m m' : Shared} {p p' q : Pc} {a : Label} {i j : Agent}

theorem Captured.Of.append {captured : Captured} {log : List Entry} (h : captured.Of log)
    (log' : List Entry) : captured.Of (log ++ log') where
  le := by
    have := h.le
    rw [List.length_append]
    omega
  tick := by rw [h.tick, List.take_append_of_le_length h.le]

theorem Coherent.of_capture (h : Coherent m) (ready : Ready) :
    (m.capture ready).Of m.log where
  le := Nat.le_refl _
  tick := by
    rw [Shared.capture, h.word.tick, List.take_length]

@[simp] theorem turns_append_set {log : List Entry} {turn : ℕ} {ready : Ready} :
    turns (log ++ [.set turn ready]) = turns log ++ [turn] := by
  simp [turns, Entry.turn?]

@[simp] theorem turns_append_clear {log : List Entry} {ready : Ready} :
    turns (log ++ [.clear ready]) = turns log := by
  simp [turns, Entry.turn?]

theorem Coherent.set {ready : Ready} {next : Word} (h : Coherent m)
    (hlt : 0 < m.turn ∧ ∀ t ∈ turns m.log, t < m.turn)
    (hpass : pass (.set m.tick) (· ||| ready) m.word = some (some next)) :
    Coherent { m with word := next, log := m.log ++ [.set m.turn ready] } where
  word := h.word.of_set (h.tick ▸ hpass)
  tick := h.tick
  sorted := by
    rw [turns_append_set, List.pairwise_append]
    exact ⟨h.sorted, List.pairwise_singleton _ _, by simpa using hlt.2⟩
  pos t ht := by
    rw [turns_append_set, List.mem_append, List.mem_singleton] at ht
    rcases ht with ht | rfl
    · exact h.pos t ht
    · exact hlt.1
  le t ht := by
    rw [turns_append_set, List.mem_append, List.mem_singleton] at ht
    rcases ht with ht | rfl
    · exact h.le t ht
    · exact Nat.le_refl _
  held captured hmem := (h.held captured hmem).append _

theorem Coherent.clear {t : BitVec 8} {ready : Ready} {next : Word} (h : Coherent m)
    (hpass : pass (.clear t) (· - ready) m.word = some (some next)) :
    Coherent { m with word := next, log := m.log ++ [.clear ready] } where
  word := (h.word.of_clear hpass).2
  tick := h.tick
  sorted := by
    rw [turns_append_clear]
    exact h.sorted
  pos := by
    rw [turns_append_clear]
    exact h.pos
  le := by
    rw [turns_append_clear]
    exact h.le
  held captured hmem := (h.held captured hmem).append _

/-- A turn, and everything that touches neither the word nor the driver's tick. -/
theorem Coherent.frame (h : Coherent m) (hword : m'.word = m.word) (hlog : m'.log = m.log)
    (htick : m'.tick = m.tick ∧ m'.turn = m.turn ∨
      m'.tick = m.tick + 1#8 ∧ m'.turn = m.turn + 1)
    (hheld : ∀ captured ∈ m'.held, captured.Of m.log) : Coherent m' where
  word := by
    rw [hword, hlog]
    exact h.word
  tick := by
    rcases htick with ⟨ht, hturn⟩ | ⟨ht, hturn⟩
    · rw [ht, hturn, h.tick]
    · rw [ht, hturn, h.tick, BitVec.ofNat_add]
  sorted := by
    rw [hlog]
    exact h.sorted
  pos := by
    rw [hlog]
    exact h.pos
  le t ht := by
    rw [hlog] at ht
    have := h.le t ht
    omega
  held := by
    rw [hlog]
    exact hheld

/-- What the log of a step is. -/
theorem log_of_move (hmove : Move interest m i p a m' p') : ∃ log, m'.log = m.log ++ log := by
  cases hmove with
  | set | clear => exact ⟨_, rfl⟩
  | _ => exact ⟨[], by simp [Shared.returnReady, Shared.wakeOne]⟩

theorem Coherent.move (h : Coherent m) (hok : Ok i m p) (hmove : Move interest m i p a m' p') :
    Coherent m' := by
  -- what is handed out is added to what is held
  have hadd {l : List Captured} (hl : ∀ x ∈ l, x.Of m.log) : ∀ x ∈ m.held ++ l, x.Of m.log :=
    List.forall_mem_append.mpr ⟨h.held, hl⟩
  obtain ⟨hcaptured, hsetting⟩ := hok
  cases hmove with
  | set hpass => exact h.set (hsetting rfl rfl) hpass
  | clear hpass => exact h.clear hpass
  | turn | turnEvent => exact h.frame rfl rfl (Or.inr ⟨rfl, rfl⟩) h.held
  | clearReadiness hmem =>
    exact h.frame rfl rfl (Or.inl ⟨rfl, rfl⟩) fun x hx ↦ h.held x (List.mem_of_mem_eraseIdx hx)
  | initReady | doneLoad | callReady | eventLoad =>
    exact h.frame rfl rfl (Or.inl ⟨rfl, rfl⟩)
      (hadd (List.forall_mem_singleton.mpr (h.of_capture _)))
  | unlockReady =>
    exact h.frame rfl rfl (Or.inl ⟨rfl, rfl⟩)
      (hadd (List.forall_mem_singleton.mpr (hcaptured _ rfl)))
  | callUnlock =>
    exact h.frame rfl rfl (Or.inl ⟨rfl, rfl⟩)
      (hadd fun x hx ↦ hcaptured x (Option.mem_toList.mp hx))
  | _ => exact h.frame rfl rfl (Or.inl ⟨rfl, rfl⟩) h.held

theorem Ok.move (h : Coherent m) (hok : Ok i m p) (hmove : Move interest m i p a m' p') :
    Ok i m' p' := by
  obtain ⟨hcaptured, hsetting⟩ := hok
  cases hmove with
  | turnEvent =>
    exact ⟨by simp [Pc.captured?], fun _ _ ↦ ⟨by simp, fun t ht ↦ Nat.lt_succ_of_le (h.le t ht)⟩⟩
  | clearReadiness hmem =>
    refine ⟨fun x hx ↦ ?_, by simp [Pc.isSetting]⟩
    rw [Pc.captured?, Option.some.injEq] at hx
    exact hx ▸ h.held _ (List.mem_of_getElem? hmem)
  | recheckReady | recheckShutdown | callRecheckReady =>
    refine ⟨fun x hx ↦ ?_, by simp [Pc.isSetting]⟩
    cases hx
    exact h.of_capture _
  | clearLoad | clearRetry => exact ⟨hcaptured, by simp [Pc.isSetting]⟩
  | setLoad | setRetry => exact ⟨by simp [Pc.captured?], hsetting⟩
  | _ => exact ⟨by simp [Pc.captured?], by simp [Pc.isSetting]⟩

theorem Ok.other (hok : Ok j m q) (hj : j ≠ i) (hmove : Move interest m i p a m' p') :
    Ok j m' q := by
  refine ⟨fun x hx ↦ ?_, fun hdriver hset ↦ ?_⟩
  · obtain ⟨log, hlog⟩ := log_of_move hmove
    exact hlog ▸ (hok.captured x hx).append log
  · subst hdriver
    have hsetting := hok.setting rfl hset
    cases hmove with
    | clear => simpa using hsetting
    | _ => first | exact absurd rfl hj | exact hsetting

theorem coherent_new {word : Word} {slot : Direction → Option Waker} {turn : ℕ}
    (h : word.Holds []) : System.Holds Coherent Ok (State.new word slot turn) := by
  refine ⟨⟨h, rfl, List.Pairwise.nil, ?_, ?_, ?_⟩, fun i ↦ ⟨?_, ?_⟩⟩
  · simp [State.new, turns]
  · simp [State.new, turns]
  · simp [State.new]
  · cases i <;> simp [State.new, Pc.captured?]
  · cases i <;> simp [State.new, Pc.isSetting]

theorem coherent_of_reachableUnder {G : State → Agent × Label → Prop} {c : State}
    (h : (machine interest).ReachableUnder G c) : System.Holds Coherent Ok c := by
  refine System.holds_of_reachableUnder h ?_ ?_ ?_
  · rintro _ ⟨word, slot, turn, hword, rfl⟩
    exact coherent_new (Word.holds_nil hword)
  · intro c i a m p _ hc _ hstep
    have hmove := move_of_step hstep
    exact ⟨hc.1.move (hc.2 i) hmove, (hc.2 i).move hc.1 hmove⟩
  · intro c i a m p _ hc _ hstep j hj
    exact (hc.2 j).other hj (move_of_step hstep)

end ArcDischarge.Io
