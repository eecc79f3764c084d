import ArcDischarge.Slab.Model

/-!
# Where the contents of a `ScheduledIo` come from

The readiness in the word, and in the events that calls hand out, is that of the events that the
driver has applied; the wakers that `wake` has woken or is about to wake are those that polls have
stored. Both are stated for any set of flags and any set of wakers that what comes in is drawn from,
so that the slab can say which registration that was.
-/

namespace ArcDischarge.Slab

open Io (Interest Ready Word Waker)

/-- The flags that an agent has with it: of the event to apply, or of the event to return. -/
def flags : Io.Pc → Ready
  | .setLoad ready | .setExchange ready _ => ready
  | .unlockReady captured | .callUnlock (some captured) => captured.event.ready
  | _ => .EMPTY

/-- The readiness in `e` is drawn from the flags `D`, and its wakers from `S`. -/
structure DrawnFrom (D : ℕ → Prop) (S : Waker → Prop) (e : Io.Shared) : Prop where
  high : ∀ i, 31 ≤ i → e.word.getLsbD i = false
  word : ∀ b ∈ e.word.readiness, D b
  held : ∀ captured ∈ e.held, ∀ b ∈ captured.event.ready, D b
  slot : ∀ d waker, e.slot d = some waker → S waker
  list : ∀ k ∈ e.list, ∀ waker, e.node k = .linked waker → S waker
  wakers : ∀ waker ∈ e.wakers, S waker
  woken : ∀ waker ∈ e.woken, S waker

variable {interest : ℕ → Interest} {D : ℕ → Prop} {S : Waker → Prop} {e e' : Io.Shared}
  {i : Io.Agent} {p p' : Io.Pc} {a : Io.Label}

namespace DrawnFrom

theorem mono {D' : ℕ → Prop} {S' : Waker → Prop} (h : DrawnFrom D S e) (hD : ∀ b, D b → D' b)
    (hS : ∀ waker, S waker → S' waker) : DrawnFrom D' S' e where
  high := h.high
  word b hb := hD b (h.word b hb)
  held captured hcaptured b hb := hD b (h.held captured hcaptured b hb)
  slot d waker hslot := hS waker (h.slot d waker hslot)
  list k hk waker hnode := hS waker (h.list k hk waker hnode)
  wakers waker hwaker := hS waker (h.wakers waker hwaker)
  woken waker hwaker := hS waker (h.woken waker hwaker)

/-- An exchange of the word that adds flags of `D` at most. -/
theorem exchange (h : DrawnFrom D S e) {tick : Io.Tick} {f : Ready → Ready} {next : Word}
    {log : List Io.Entry} (hpass : Io.pass tick f e.word = some (some next))
    (hf : ∀ b ∈ f e.word.readiness, D b) : DrawnFrom D S { e with word := next, log } := by
  obtain ⟨next', hpass', hready, -, -, hhigh⟩ :=
    Io.exists_pass tick f e.word (Io.isOld_eq_false_of_pass hpass)
  obtain rfl : next = next' := Option.some.inj (Option.some.inj (hpass.symm.trans hpass'))
  exact ⟨hhigh, fun b hb ↦ hf b (hready ▸ hb), h.held, h.slot, h.list, h.wakers, h.woken⟩

/-- An event is handed out. -/
theorem returns (h : DrawnFrom D S e) {captured : Io.Captured}
    (hcaptured : ∀ b ∈ captured.event.ready, D b) {lock : Option Io.Agent}
    {results : ℕ → List Io.Poll} :
    DrawnFrom D S { e with held := e.held ++ [captured], lock, results } := by
  refine ⟨h.high, h.word, fun c hc ↦ ?_, h.slot, h.list, h.wakers, h.woken⟩
  rcases List.mem_append.mp hc with hc | hc
  · exact h.held c hc
  · rw [List.mem_singleton] at hc
    rw [hc]
    exact hcaptured

theorem takenWakers (h : DrawnFrom D S e) (ready : Ready) :
    ∀ waker ∈ e.takenWakers ready, S waker := by
  intro waker hwaker
  rw [Io.Shared.takenWakers, List.mem_append] at hwaker
  have hslot (d : Io.Direction) (hd : waker ∈ (e.slot d).toList) : S waker :=
    h.slot d waker (Option.mem_toList.mp hd)
  rcases hwaker with hwaker | hwaker
  · split at hwaker
    · exact hslot _ hwaker
    · cases hwaker
  · split at hwaker
    · exact hslot _ hwaker
    · cases hwaker

theorem wakeOne (h : DrawnFrom D S e) {waker : Waker} {rest : List Waker}
    (hwakers : e.wakers = waker :: rest) : DrawnFrom D S (e.wakeOne waker rest) := by
  have hmem (w : Waker) (hw : w ∈ waker :: rest) : S w := h.wakers w (hwakers ▸ hw)
  refine ⟨h.high, h.word, h.held, h.slot, h.list,
    fun w hw ↦ hmem w (List.mem_cons_of_mem _ hw), fun w hw ↦ ?_⟩
  rcases List.mem_append.mp hw with hw | hw
  · exact h.woken w hw
  · rw [List.mem_singleton] at hw
    exact hmem w (hw ▸ List.mem_cons_self)

/-- A waker of `S` is stored in a node. -/
theorem link (h : DrawnFrom D S e) {k : ℕ} {waker : Waker} (hwaker : S waker) {list : List ℕ}
    (hlist : ∀ k' ∈ list, k' = k ∨ k' ∈ e.list) {stored : ℕ → Io.Stored} :
    DrawnFrom D S { e with list, node := Function.update e.node k (.linked waker), stored } := by
  refine ⟨h.high, h.word, h.held, h.slot, fun k' hk' w hw ↦ ?_, h.wakers, h.woken⟩
  by_cases hk : k' = k
  · rw [hk] at hw
    change Function.update e.node k (.linked waker) k = .linked w at hw
    rw [Function.update_self, Io.Node.linked.injEq] at hw
    exact hw ▸ hwaker
  · change Function.update e.node k (.linked waker) k' = .linked w at hw
    rw [Function.update_of_ne hk] at hw
    exact h.list k' ((hlist k' hk').resolve_left hk) w hw

/-- A node is taken out of the list, or is new again. -/
theorem unlink (h : DrawnFrom D S e) {k : ℕ} {n : Io.Node} (hn : ∀ waker, n ≠ .linked waker)
    {list : List ℕ} (hlist : ∀ k' ∈ list, k' ∈ e.list) {wakers : List Waker}
    (hwakers : ∀ waker ∈ wakers, S waker) :
    DrawnFrom D S { e with list, wakers, node := Function.update e.node k n } := by
  refine ⟨h.high, h.word, h.held, h.slot, fun k' hk' w hw ↦ ?_, hwakers, h.woken⟩
  change Function.update e.node k n k' = .linked w at hw
  by_cases hk : k' = k
  · rw [hk, Function.update_self] at hw
    exact absurd hw (hn w)
  · rw [Function.update_of_ne hk] at hw
    exact h.list k' (hlist k' hk') w hw

theorem isShutdown (h : DrawnFrom D S e) : e.word.isShutdown = false :=
  Io.isShutdown_eq_false h.high

/-- What a call sees is in the word. -/
theorem mem_of_and (h : DrawnFrom D S e) {r : Ready} : ∀ b ∈ r &&& e.word.readiness, D b :=
  fun b hb ↦ h.word b (Ready.mem_and.mp hb).2

theorem mem_of_intersection (h : DrawnFrom D S e) {j : Interest} :
    ∀ b ∈ e.word.readiness.intersection j, D b := fun b hb ↦ h.word b (Ready.mem_and.mp hb).1

theorem mem_of_recheckReady (h : DrawnFrom D S e) {j : Interest} :
    ∀ b ∈ e.recheckReady j, D b := by
  rw [Io.Shared.recheckReady, h.isShutdown]
  exact h.mem_of_intersection

/-- **The contents stay drawn from what comes in**: a step brings in the flags that its agent has
with it, and the waker that it stores. -/
theorem move (h : DrawnFrom D S e) (hflags : ∀ b ∈ flags p, D b)
    (hstoring : ∀ waker, storing e i p = some waker → S waker)
    (hmove : Io.Move interest e i p a e' p') : DrawnFrom D S e' := by
  cases hmove with
  | set hpass =>
    refine h.exchange hpass fun b hb ↦ ?_
    exact (Ready.mem_or.mp hb).elim (h.word b) (hflags b)
  | clear hpass => exact h.exchange hpass fun b hb ↦ h.word b (Ready.mem_sub.mp hb).1
  | wakeLock => exact ⟨h.high, h.word, h.held, h.slot, h.list, by simp, h.woken⟩
  | takeSlots =>
    refine ⟨h.high, h.word, h.held, fun d waker hslot ↦ ?_, h.list, h.takenWakers _, h.woken⟩
    dsimp only at hslot
    split at hslot
    · cases hslot
    · exact h.slot d waker hslot
  | @scanRemove _ k _ rest waker hlist _ hnode =>
    have hmem (k' : ℕ) (hk' : k' ∈ rest) : k' ∈ e.list := hlist ▸ List.mem_cons_of_mem _ hk'
    refine h.unlink (by simp) hmem fun w hw ↦ ?_
    rcases List.mem_append.mp hw with hw | hw
    · exact h.wakers w hw
    · rw [List.mem_singleton.mp hw]
      exact h.list k (hlist ▸ List.mem_cons_self) waker hnode
  | drainWake hwakers | finishWake hwakers => exact h.wakeOne hwakers
  | initReady | doneLoad =>
    refine h.returns ?_
    exact h.mem_of_intersection
  | @register k _ waker => exact h.link (hstoring waker rfl) fun k' hk' ↦ List.mem_cons.mp hk'
  | @inspectLinked k old waker hlinked =>
    have hwaker := hstoring waker (by simp [storing, hlinked])
    exact h.link hwaker fun k' hk' ↦ .inr hk'
  | inspectRemoved => exact h.unlink (by simp) (fun _ hk ↦ hk) h.wakers
  | unlockReady => exact h.returns hflags
  | callReady | eventLoad =>
    refine h.returns ?_
    exact h.mem_of_and
  | @store k d waker =>
    refine ⟨h.high, h.word, h.held, fun d' w hslot ↦ ?_, h.list, h.wakers, h.woken⟩
    change Function.update e.slot d (some waker) d' = some w at hslot
    by_cases hd : d' = d
    · rw [hd, Function.update_self, Option.some.injEq] at hslot
      exact hslot ▸ hstoring waker rfl
    · rw [Function.update_of_ne hd] at hslot
      exact h.slot d' w hslot
  | @callUnlock k captured =>
    cases captured with
    | none =>
      refine ⟨h.high, h.word, fun c hc ↦ h.held c ?_, h.slot, h.list, h.wakers, h.woken⟩
      simpa using hc
    | some captured => exact h.returns hflags
  | clearReadiness =>
    exact ⟨h.high, h.word, fun c hc ↦ h.held c (List.mem_of_mem_eraseIdx hc), h.slot, h.list,
      h.wakers, h.woken⟩
  | _ => exact ⟨h.high, h.word, h.held, h.slot, h.list, h.wakers, h.woken⟩

/-- What an agent takes with it is in the word; the driver gets its event from outside. -/
theorem flags_move (h : DrawnFrom D S e) (hflags : ∀ b ∈ flags p, D b)
    (hp : p ≠ .idle ∨ i ≠ .driver) (hmove : Io.Move interest e i p a e' p') :
    ∀ b ∈ flags p', D b := by
  have hempty (b : ℕ) (hb : b ∈ Ready.EMPTY) : D b := (Ready.not_mem_EMPTY.mp hb).elim
  cases hmove with
  | turnEvent => simp at hp
  | setLoad | setRetry => exact hflags
  | recheckReady => exact h.mem_of_recheckReady
  | recheckShutdown hshut => simp [h.isShutdown] at hshut
  | callRecheckReady => exact h.mem_of_and
  | _ => exact hempty

end DrawnFrom

end ArcDischarge.Slab
