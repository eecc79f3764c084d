import ArcDischarge.Io.Ready
import Mathlib.Data.List.Induction

/-!
# The readiness word

The word of a `ScheduledIo` (`src/io/mod.rs`) packs the readiness, the tick of the driver's last
event, the generation and the shutdown flag. `pass` is one pass of the loop of `set_readiness` up to
its `compare_exchange`; `exists_pass` says what it writes.

The second half is about what the word stands for: the list of the exchanges that took effect on it.
The readiness of the word is what the events have set and no later clear has removed, and its tick
is that of the last event.
-/

namespace ArcDischarge.Io

abbrev Word := BitVec 64

def READINESS : Pack 64 := .leastSignificant 16

def TICK : Pack 64 := READINESS.then' 8

def GENERATION : Pack 64 := TICK.then' 7

def SHUTDOWN : Pack 64 := GENERATION.then' 1

theorem spans_READINESS : READINESS.Spans 0 16 :=
  Pack.spans_leastSignificant (by omega) (by omega)

theorem spans_TICK : TICK.Spans 16 8 := spans_READINESS.then' (by omega) (by omega)

theorem spans_GENERATION : GENERATION.Spans 24 7 := spans_TICK.then' (by omega) (by omega)

theorem spans_SHUTDOWN : SHUTDOWN.Spans 31 1 := spans_GENERATION.then' (by omega) (by omega)

namespace Word

/-- `Ready::from_usize(READINESS.unpack(curr))`. -/
def readiness (w : Word) : Ready := .fromUsize (READINESS.unpack w)

/-- `TICK.unpack(curr) as u8`. -/
def tick (w : Word) : BitVec 8 := (TICK.unpack w).setWidth 8

/-- `SHUTDOWN.unpack(curr) != 0`. -/
def isShutdown (w : Word) : Bool := SHUTDOWN.unpack w != 0#64

/-- The word after a `clear`: the next generation and nothing else. -/
def cleared (w : Word) : Option Word := GENERATION.packLossy (GENERATION.unpack w + 1#64) 0#64

end Word

inductive Tick where
  | set (tick : BitVec 8)
  | clear (tick : BitVec 8)
  deriving DecidableEq, Repr

def Tick.value : Tick → BitVec 8
  | .set t => t
  | .clear t => t

/-- "Trying to clear readiness with an old event!" -/
def Tick.isOld (current : Word) : Tick → Bool
  | .set _ => false
  | .clear t => current.tick != t

structure ReadyEvent where
  tick : BitVec 8
  ready : Ready
  isShutdown : Bool
  deriving DecidableEq

/-- `Registration::poll_ready` and `Registration::readiness` turn an event of a slot that is shut
down into the error `gone()`. -/
def ReadyEvent.orGone {ε : Type*} (gone : ε) (event : ReadyEvent) : Except ε ReadyEvent :=
  if event.isShutdown then .error gone else .ok event

/-- One pass of the loop of `set_readiness`: `none` when an assertion of `pack` fails, `some none`
when the function returns without an exchange, else the word to exchange `current` for. -/
def pass (tick : Tick) (f : Ready → Ready) (current : Word) : Option (Option Word) :=
  let new := f (.fromUsize current)
  if tick.isOld current then some none
  else do
    let packed ← TICK.pack (tick.value.setWidth 64) new.asUsize
    let next ← GENERATION.pack (GENERATION.unpack current) packed
    return some next

/-- What `clear_readiness` removes: the closed states are final. -/
def ReadyEvent.maskNoClosed (event : ReadyEvent) : Ready :=
  event.ready - Ready.READ_CLOSED - Ready.WRITE_CLOSED

theorem fromUsize_eq_readiness (w : Word) : Ready.fromUsize w = w.readiness := by
  refine Ready.ext_mem fun b ↦ ?_
  rw [Word.readiness, Ready.mem_fromUsize, Ready.mem_fromUsize, spans_READINESS.getLsbD_unpack]
  exact and_congr_right fun hb ↦ by simp [show b < 16 by omega]

/-- A pass that is not turned away packs all three fields; its assertions hold. -/
theorem exists_pass (tick : Tick) (f : Ready → Ready) (current : Word)
    (h : tick.isOld current = false) :
    ∃ next, pass tick f current = some (some next) ∧ next.readiness = f current.readiness ∧
      next.tick = tick.value ∧ GENERATION.unpack next = GENERATION.unpack current ∧
      ∀ i, 31 ≤ i → next.getLsbD i = false := by
  have hvalue : (tick.value.setWidth 64).toNat < 2 ^ 8 := by
    have := tick.value.isLt
    rw [BitVec.toNat_setWidth]
    omega
  obtain ⟨packed, hpacked⟩ : ∃ packed,
      TICK.pack (tick.value.setWidth 64) (f (.fromUsize current)).asUsize = some packed :=
    ⟨_, (spans_TICK.pack_eq_some (by omega)).mpr ⟨hvalue, rfl⟩⟩
  obtain ⟨next, hnext⟩ : ∃ next, GENERATION.pack (GENERATION.unpack current) packed = some next :=
    ⟨_, (spans_GENERATION.pack_eq_some (by omega)).mpr
      ⟨spans_GENERATION.toNat_unpack_lt current, rfl⟩⟩
  have hbits := spans_GENERATION.getLsbD_pack (by omega) hnext
  have hpackedBits := spans_TICK.getLsbD_pack (by omega) hpacked
  have hready (i : ℕ) (hi : 4 ≤ i) : (f (.fromUsize current)).asUsize.getLsbD i = false := by
    refine Bool.eq_false_iff.mpr fun hmem ↦ ?_
    have := Ready.lt_of_mem (r := f (.fromUsize current)) hmem
    omega
  refine ⟨next, by simp [pass, h, hpacked, hnext], ?_, ?_,
    spans_GENERATION.unpack_pack (by omega) hnext, fun i hi ↦ ?_⟩
  · rw [← fromUsize_eq_readiness, ← fromUsize_eq_readiness]
    refine Ready.ext_mem fun b ↦ ?_
    rw [Ready.mem_fromUsize]
    constructor
    · rintro ⟨hb, hmem⟩
      rwa [hbits, if_neg (by omega), hpackedBits, if_neg (by omega)] at hmem
    · intro hmem
      have hb := Ready.lt_of_mem hmem
      rw [hbits, if_neg (by omega), hpackedBits, if_neg (by omega)]
      exact ⟨hb, hmem⟩
  · rw [Word.tick, spans_GENERATION.unpack_pack_of_disjoint (by omega) spans_TICK (by omega) hnext,
      spans_TICK.unpack_pack (by omega) hpacked, BitVec.setWidth_setWidth_of_le _ (by omega),
      BitVec.setWidth_eq]
  · rw [hbits, if_neg (by omega), hpackedBits, if_neg (by omega)]
    exact hready i (by omega)

theorem isOld_eq_false_of_pass {tick : Tick} {f : Ready → Ready} {current next : Word}
    (h : pass tick f current = some (some next)) : tick.isOld current = false := by
  refine Bool.eq_false_iff.mpr fun hold ↦ ?_
  rw [pass, if_pos hold] at h
  cases h

/-- A pass is turned away only with an old event. -/
theorem isOld_of_pass {tick : Tick} {f : Ready → Ready} {current : Word}
    (h : pass tick f current = some none) : tick.isOld current = true := by
  refine Bool.of_not_eq_false fun hnew ↦ ?_
  obtain ⟨next, hpass, -⟩ := exists_pass tick f current hnew
  rw [hpass] at h
  cases h

/-- No pass of `set_readiness` fails an assertion of `pack`. -/
theorem pass_ne_none (tick : Tick) (f : Ready → Ready) (current : Word) :
    pass tick f current ≠ none := by
  cases hold : tick.isOld current with
  | true =>
    rw [pass, if_pos hold]
    exact Option.some_ne_none _
  | false =>
    obtain ⟨next, hnext, -⟩ := exists_pass tick f current hold
    rw [hnext]
    exact Option.some_ne_none _

/-- What a pass writes between the readiness proper and the tick. -/
theorem getLsbD_of_pass {tick : Tick} {f : Ready → Ready} {current next : Word}
    (h : pass tick f current = some (some next)) {i : ℕ} (hlo : 4 ≤ i) (hhi : i < 16) :
    next.getLsbD i = false := by
  rw [pass, if_neg (by simp [isOld_eq_false_of_pass h])] at h
  obtain ⟨packed, hpacked, h⟩ := Option.bind_eq_some_iff.mp h
  obtain ⟨next', hnext, h⟩ := Option.bind_eq_some_iff.mp h
  obtain rfl : next' = next := Option.some.inj (Option.some.inj h)
  rw [spans_GENERATION.getLsbD_pack (by omega) hnext, if_neg (by omega),
    spans_TICK.getLsbD_pack (by omega) hpacked, if_neg (by omega)]
  refine Bool.eq_false_iff.mpr fun hmem ↦ ?_
  have := Ready.lt_of_mem (r := f (.fromUsize current)) hmem
  omega

theorem isShutdown_eq_false {w : Word} (h : ∀ i, 31 ≤ i → w.getLsbD i = false) :
    w.isShutdown = false := by
  rw [Word.isShutdown, bne_eq_false_iff_eq]
  refine BitVec.eq_of_getLsbD_eq fun i _ ↦ ?_
  rw [spans_SHUTDOWN.getLsbD_unpack, h _ (by omega)]
  simp

/-- `clear` fails no assertion of `pack` either, and counts the generation modulo 128. -/
theorem Word.exists_cleared (w : Word) : ∃ next, w.cleared = some next ∧
    (GENERATION.unpack next).toNat = ((GENERATION.unpack w).toNat + 1) % 128 := by
  have hlt := spans_GENERATION.toNat_unpack_lt w
  have hvalue : ((GENERATION.unpack w + 1#64) &&& GENERATION.maxValue).toNat =
      ((GENERATION.unpack w).toNat + 1) % 128 := by
    rw [BitVec.toNat_and, spans_GENERATION.toNat_maxValue (by omega),
      Nat.and_two_pow_sub_one_eq_mod, BitVec.toNat_add, BitVec.toNat_ofNat]
    omega
  obtain ⟨next, hnext⟩ : ∃ next, w.cleared = some next :=
    ⟨_, (spans_GENERATION.pack_eq_some (by omega)).mpr ⟨by rw [hvalue]; omega, rfl⟩⟩
  exact ⟨next, hnext, by rw [spans_GENERATION.unpack_pack (by omega) hnext, hvalue]⟩

/-! ## The exchanges on a word -/

/-- An exchange that took effect: an event of a driver's turn, or a consumer's clear. -/
inductive Entry where
  | set (turn : ℕ) (ready : Ready)
  | clear (removed : Ready)
  deriving DecidableEq

/-- The turn of an event. -/
def Entry.turn? : Entry → Option ℕ
  | .set turn _ => some turn
  | .clear _ => none

def Entry.apply (r : Ready) : Entry → Ready
  | .set _ q => r ||| q
  | .clear q => r - q

/-- What the events of a list have set and no later clear has removed. -/
def readiness (log : List Entry) : Ready := log.foldl Entry.apply .EMPTY

/-- The turns of the events of a list. -/
def turns (log : List Entry) : List ℕ := log.filterMap Entry.turn?

/-- The turn of the last event. A slot without events has tick 0, as if its last event were in turn
0. -/
def lastTurn (log : List Entry) : ℕ := (turns log).getLast?.getD 0

variable {log : List Entry} {e : Entry} {turn : ℕ} {ready : Ready} {b i : ℕ}

theorem readiness_append_singleton :
    readiness (log ++ [e]) = Entry.apply (readiness log) e := by
  rw [readiness, List.foldl_append]
  rfl

theorem turns_append (log log' : List Entry) : turns (log ++ log') = turns log ++ turns log' :=
  List.filterMap_append

@[simp] theorem lastTurn_append_set : lastTurn (log ++ [.set turn ready]) = turn := by
  simp [lastTurn, turns, Entry.turn?]

@[simp] theorem lastTurn_append_clear : lastTurn (log ++ [.clear ready]) = lastTurn log := by
  simp [lastTurn, turns, Entry.turn?]

/-- **A bit that was set and is gone has been cleared** since, by a clear that found it set. -/
theorem exists_clear_of_not_mem (h : log[i]? = some (.set turn ready)) (hb : b ∈ ready)
    (hgone : b ∉ readiness log) :
    ∃ j removed, i < j ∧ log[j]? = some (.clear removed) ∧ b ∈ removed ∧
      b ∈ readiness (log.take j) := by
  -- by induction from the end: the last entry is the event, the clear, or neither
  induction log using List.reverseRecOn with
  | nil => simp at h
  | append_singleton log e ih =>
    rw [readiness_append_singleton] at hgone
    rcases Nat.lt_trichotomy i log.length with hi | rfl | hi
    · rw [List.getElem?_append_left hi] at h
      by_cases hlog : b ∈ readiness log
      · cases e with
        | set t q => simp [Entry.apply, hlog] at hgone
        | clear q =>
          exact ⟨log.length, q, hi, by simp, by simpa [Entry.apply, hlog] using hgone,
            by simpa using hlog⟩
      · obtain ⟨j, removed, hij, hj, hmem, hset⟩ := ih h hlog
        have hlt := (List.getElem?_eq_some_iff.mp hj).1
        exact ⟨j, removed, hij, by rwa [List.getElem?_append_left hlt], hmem,
          by rwa [List.take_append_of_le_length (Nat.le_of_lt hlt)]⟩
    · rw [List.getElem?_append_right (Nat.le_refl _), Nat.sub_self, List.getElem?_cons_zero,
        Option.some.injEq] at h
      subst h
      simp [Entry.apply, hb] at hgone
    · rw [List.getElem?_eq_none (by rw [List.length_append, List.length_singleton]; omega)] at h
      cases h

/-- The word holds what the exchanges amount to. -/
structure Word.Holds (w : Word) (log : List Entry) : Prop where
  readiness : w.readiness = Io.readiness log
  tick : w.tick = BitVec.ofNat 8 (lastTurn log)
  high : ∀ i, 31 ≤ i → w.getLsbD i = false

/-- Between two uses of a slot only the generation is there. -/
theorem Word.holds_nil {w : Word} (h : w = 0#64 ∨ ∃ v : Word, v.cleared = some w) :
    w.Holds [] := by
  have hbits : ∀ i, i < 24 ∨ 31 ≤ i → w.getLsbD i = false := by
    intro i hi
    rcases h with rfl | ⟨v, hv⟩
    · simp
    · rw [spans_GENERATION.getLsbD_pack (by omega) hv, if_neg (by omega)]
      simp
  refine ⟨Ready.ext_mem fun b ↦ ?_, BitVec.eq_of_getLsbD_eq fun i hi ↦ ?_,
    fun i hi ↦ hbits i (Or.inr hi)⟩
  · rw [← fromUsize_eq_readiness, Ready.mem_fromUsize]
    by_cases hb : b < 4
    · simp [hbits b (by omega), Io.readiness]
    · simp [hb, Io.readiness]
  · rw [Word.tick, BitVec.getLsbD_setWidth, spans_TICK.getLsbD_unpack, hbits _ (by omega)]
    simp [lastTurn, turns]

namespace Word.Holds

variable {w next : Word}

theorem isShutdown (h : w.Holds log) : w.isShutdown = false := isShutdown_eq_false h.high

theorem of_set (h : w.Holds log)
    (hpass : pass (.set (BitVec.ofNat 8 turn)) (· ||| ready) w = some (some next)) :
    next.Holds (log ++ [.set turn ready]) := by
  obtain ⟨next', hpass', hready, htick, -, hhigh⟩ :=
    exists_pass _ (· ||| ready) w (isOld_eq_false_of_pass hpass)
  rw [hpass, Option.some.injEq, Option.some.injEq] at hpass'
  subst hpass'
  exact ⟨by rw [hready, h.readiness, readiness_append_singleton, Entry.apply],
    by rw [htick, lastTurn_append_set, Tick.value], hhigh⟩

theorem of_clear {t : BitVec 8} (h : w.Holds log)
    (hpass : pass (.clear t) (· - ready) w = some (some next)) :
    w.tick = t ∧ next.Holds (log ++ [.clear ready]) := by
  have hold := isOld_eq_false_of_pass hpass
  obtain ⟨next', hpass', hready, htick, -, hhigh⟩ := exists_pass _ (· - ready) w hold
  rw [hpass, Option.some.injEq, Option.some.injEq] at hpass'
  subst hpass'
  have ht : w.tick = t := by simpa [Tick.isOld] using hold
  exact ⟨ht, by rw [hready, h.readiness, readiness_append_singleton, Entry.apply],
    by rw [htick, lastTurn_append_clear, Tick.value, ← ht, h.tick], hhigh⟩

end Word.Holds

end ArcDischarge.Io
