import ArcDischarge.Io.Served
import ArcDischarge.Socket.Delivered

/-!
# Who waits for a socket hears of it

From the socket to the waker. A direction that is ready is announced or set in the word; what is set
in the word was set by an event that no clear has answered; such an event comes after the re-check
of everybody who waits for the direction; and the `wake` of an event that has returned has woken
them. So whoever waits for a direction that is ready has been woken since, or the news is still on
its way: with the selector, with the driver, or with a `wake` that has not returned.
-/

namespace ArcDischarge.Io

/-- The event whose `wake` the driver is in. -/
def Pc.wakes? : Pc → Option ℕ
  | .wakeLock event _ | .takeSlots event _ | .scan event _ | .drain event _ => some event
  | .finish event => some event
  | _ => none

/-- The `wake` of every event has returned, except for the one that the driver is in. -/
def AllReturned (c : State) : Prop :=
  ∀ i, IsEvent c.shared.log i → i < c.shared.returned ∨ (c.pc .driver).wakes? = some i

variable {interest : ℕ → Interest} {m m' : Shared} {p p' : Pc} {a : Label} {i : Agent} {c : State}

/-- A flag that is set was set by an event, and no clear has removed it since. -/
theorem exists_set_of_mem {log : List Entry} {b : ℕ} (h : b ∈ readiness log) :
    ∃ (i turn : ℕ) (ready : Ready), log[i]? = some (.set turn ready) ∧ b ∈ ready ∧
      ∀ j removed, i < j → log[j]? = some (.clear removed) → b ∉ removed := by
  induction log using List.reverseRecOn with
  | nil => simp [readiness] at h
  | append_singleton log e ih =>
    rw [readiness_append_singleton] at h
    by_cases hset : ∃ turn ready, e = .set turn ready ∧ b ∈ ready
    · obtain ⟨turn, ready, rfl, hb⟩ := hset
      refine ⟨log.length, turn, ready, List.getElem?_concat_length, hb,
        fun j removed hj hclear ↦ ?_⟩
      have hlt := (List.getElem?_eq_some_iff.mp hclear).1
      rw [List.length_append, List.length_singleton] at hlt
      omega
    · -- the last entry leaves the flag as it is
      have hb : b ∈ readiness log ∧ ∀ removed, e = .clear removed → b ∉ removed := by
        cases e with
        | set turn ready =>
          have hnot : b ∉ ready := fun hb ↦ hset ⟨turn, ready, rfl, hb⟩
          simpa [Entry.apply, hnot] using h
        | clear removed => simpa [Entry.apply] using h
      obtain ⟨i, turn, ready, hi, hready, hlast⟩ := ih hb.1
      have hlt := (List.getElem?_eq_some_iff.mp hi).1
      refine ⟨i, turn, ready, by rwa [List.getElem?_append_left hlt], hready,
        fun j removed hj hclear ↦ ?_⟩
      by_cases hjlt : j < log.length
      · rw [List.getElem?_append_left hjlt] at hclear
        exact hlast j removed hj hclear
      · have hle := (List.getElem?_eq_some_iff.mp hclear).1
        rw [List.length_append, List.length_singleton] at hle
        obtain rfl : j = log.length := by omega
        rw [List.getElem?_concat_length, Option.some.injEq] at hclear
        exact hb.2 removed hclear

/-- A flag that is set, and had been answered up to entry `n`, was set by an event since then. -/
theorem Answered.exists_since {log : List Entry} {mask : Ready} {n b : ℕ} (h : Answered log mask n)
    (hb : b ∈ readiness log) (hmask : b ∈ mask) :
    ∃ (i turn : ℕ) (ready : Ready), log[i]? = some (.set turn ready) ∧ b ∈ ready ∧ n ≤ i := by
  obtain ⟨i, turn, ready, hi, hready, hlast⟩ := exists_set_of_mem hb
  refine ⟨i, turn, ready, hi, hready, Nat.le_of_not_lt fun hlt ↦ ?_⟩
  obtain ⟨j, removed, hij, -, hj, hremoved, -⟩ := h i turn ready b hi hlt hready hmask
  exact hlast j removed hij hj hremoved

/-- A step of the driver. -/
theorem Move.wakes (hat : DriverAt m p) (hmove : Move interest m .driver p a m' p')
    (h : ∀ i, IsEvent m.log i → i < m.returned ∨ p.wakes? = some i) :
    ∀ i, IsEvent m'.log i → i < m'.returned ∨ p'.wakes? = some i := by
  cases hmove with
  | set =>
    intro i hi
    rcases isEvent_of_append hi with hi | ⟨rfl, -⟩
    · exact Or.inl ((h i hi).resolve_right fun hnone ↦ by cases hnone)
    · exact Or.inr rfl
  | wakeReturn =>
    obtain ⟨-, hslots, hevents⟩ := hat
    intro i hi
    exact Or.inl (hslots ▸ hevents i hi)
  | _ => exact h

/-- A step of anybody else. -/
theorem Move.returned (hi : i ≠ .driver) (hmove : Move interest m i p a m' p') :
    m'.returned = m.returned ∧ ∀ j, IsEvent m'.log j → IsEvent m.log j := by
  cases hmove with
  | clear => exact ⟨rfl, fun j hj ↦ isEvent_of_append_clear hj⟩
  | _ => first | exact absurd rfl hi | exact ⟨rfl, fun _ hj ↦ hj⟩

theorem allReturned_of_reachableUnder {G : State → Agent × Label → Prop}
    (h : (machine interest).ReachableUnder G c) : AllReturned c := by
  refine System.invariant h (fun c hinit ↦ ?_) fun c i a m p hreach hc _ hstep ↦ ?_
  · obtain ⟨word, slot, turn, -, rfl⟩ := hinit
    exact fun i hi ↦ absurd hi.lt (by simp [State.new])
  · have hmove := move_of_step hstep
    intro j hj
    by_cases hi : i = .driver
    · subst hi
      have hat := (served_of_reachableUnder hreach).2 .driver |>.driver rfl
      simpa using hmove.wakes hat hc j hj
    · obtain ⟨hreturned, hevents⟩ := hmove.returned hi
      simpa [hreturned, Ne.symm hi] using hc j (hevents j hj)

end ArcDischarge.Io

namespace ArcDischarge.Socket

open Io (Agent Direction Interest Label Ready)

/-- The interest is in direction `d`. -/
def covers (interest : Interest) : Direction → Bool
  | .read => interest.isReadable
  | .write => interest.isWritable

/-- The waker has been woken since it was stored. -/
def Woken (m : Io.Shared) (g : Io.Stored) : Prop := g.waker ∈ m.woken.drop g.wakes

/-- The news that direction `d` is ready is on its way. -/
def Coming (s : State) (d : Direction) : Prop :=
  Announced s d ∨
    ∃ event, (s.io.pc .driver).wakes? = some event ∧ Io.Matches s.io.shared.log d.mask event

variable {interest : ℕ → Interest} {s : State} {d : Direction}

theorem mem_fromInterest_of_covers {i : Interest} {b : ℕ} (h : covers i d = true)
    (hb : b ∈ d.mask) : b ∈ Ready.fromInterest i := by
  cases d with
  | read =>
    have hreadable : i.isReadable = true := h
    rw [Ready.fromInterest, hreadable]
    exact Io.Ready.mem_or.mpr (Or.inl hb)
  | write =>
    have hwritable : i.isWritable = true := h
    rw [Ready.fromInterest, hwritable]
    exact Io.Ready.mem_or.mpr (Or.inr hb)

/-- Somebody who waits for flags of the direction, among others: unless all their events since the
re-check are behind `returned`, the driver is in the `wake` of one of them. -/
theorem coming_of_since {mask : Ready} {g : Io.Stored} {b : ℕ} (hreturned : Io.AllReturned s.io)
    (hg : Io.Registered s.io.shared mask g) (hb : b ∈ Io.readiness s.io.shared.log)
    (hd : b ∈ d.mask) (hmask : b ∈ mask)
    (hsince : Io.Since s.io.shared.log mask g s.io.shared.returned) : Coming s d := by
  obtain ⟨i, turn, ready, hi, hready, hrecheck⟩ := hg.answered.exists_since hb hmask
  have hle := hsince i ⟨turn, ready, hi, b, hready, hmask⟩ hrecheck
  have hwakes := (hreturned i ⟨turn, ready, hi⟩).resolve_left (Nat.not_lt.mpr hle)
  exact Or.inr ⟨i, hwakes, turn, ready, hi, b, hready, hd⟩

theorem since_mono {log : List Io.Entry} {mask : Ready} {g : Io.Stored} {n n' : ℕ}
    (h : Io.Since log mask g n) (hn : n' ≤ n) : Io.Since log mask g n' :=
  fun i hi hrecheck ↦ Nat.le_trans hn (h i hi hrecheck)

/-- **Readiness is not lost**: a direction in which an operation would not block is one that the
selector still has to report, or that the driver is about to set, or that `poll_readiness` finds
ready. -/
theorem known_of_ready (interest : ℕ → Interest) (s : State) (d : Direction)
    (h : (machine interest).ReachableUnder NotLapped s) (hready : s.kernel.ready d = true) :
    s.kernel.edge d = true ∨ (s.io.pc .driver).Carries d.mask ∨
      (d.mask &&& s.io.shared.word.readiness).isEmpty = false := by
  have hword := (Io.coherent_of_reachableUnder (reachableUnder_io h)).1.word
  rcases (delivered_of_reachableUnder h).word d hready with (hedge | hcarries) | ⟨b, hb, hmask⟩
  · exact Or.inl hedge
  · exact Or.inr (Or.inl hcarries)
  · refine Or.inr (Or.inr (Bool.eq_false_iff.mpr fun hempty ↦ ?_))
    rw [← hword.readiness] at hb
    exact Io.Ready.isEmpty_iff.mp hempty b (Io.Ready.mem_and.mpr ⟨hmask, hb⟩)

/-- **Who waits for a socket that is ready hears of it**: every future whose node is in use and
every pending caller of `poll_readiness` has been woken since it stored its waker, or the news is on
its way. -/
theorem heard_of_ready (interest : ℕ → Interest) (s : State) (d : Direction)
    (h : (machine interest).ReachableUnder NotLapped s) (hready : s.kernel.ready d = true) :
    (∀ k, s.io.shared.node k ≠ .new → covers (interest k) d = true →
      Woken s.io.shared (s.io.shared.stored k) ∨ Coming s d) ∧
    ∀ g, s.io.shared.caller d = some g → g.pending = true →
      Woken s.io.shared g.stored ∨ Coming s d := by
  have hserved := (Io.served_of_reachableUnder (reachableUnder_io h)).1
  have hreturned := Io.allReturned_of_reachableUnder (reachableUnder_io h)
  rcases (delivered_of_reachableUnder h).word d hready with hann | ⟨b, hb, hd⟩
  · exact ⟨fun _ _ _ ↦ Or.inr (Or.inl hann), fun _ _ _ ↦ Or.inr (Or.inl hann)⟩
  refine ⟨fun k hnode hcovers ↦ ?_, fun g hg hpending ↦ ?_⟩
  · have hmask := mem_fromInterest_of_covers hcovers hd
    have hcoming := coming_of_since hreturned (hserved.registered k hnode) hb hd hmask
    cases hk : s.io.shared.node k with
    | new => exact absurd hk hnode
    | linked waker =>
      exact Or.inr (hcoming (since_mono (hserved.linked k waker hk).2 hserved.returned_le_listDone))
    | removed => exact (hserved.removed k hk).imp_right fun hcalled ↦ hcoming hcalled.2
  · obtain ⟨hreg, hslot⟩ := hserved.caller d g hg hpending
    have hcoming := coming_of_since hreturned hreg hb hd hd
    rcases hslot with ⟨-, hsince⟩ | hcalled
    · exact Or.inr (hcoming (since_mono hsince hserved.returned_le_slotsDone))
    · exact hcalled.imp_right fun hcalled ↦ hcoming hcalled.2

/-! ## A socket that becomes readable twice -/

def ofIo : Agent × Label → Action
  | (.driver, .turn event) => .turn event
  | (.thread k, .clearReadiness n) => .exhaust k n
  | (i, a) => .io i a

/-- A socket that is registered before anything has come. -/
def quiet : State := ⟨.new 0#64 (fun _ ↦ none) 0, fun _ ↦ false, fun _ ↦ false⟩

theorem init_quiet : (machine interest).init quiet :=
  ⟨⟨_, _, _, Or.inl rfl, rfl⟩, fun _ h ↦ absurd h Bool.false_ne_true⟩

/-- An event comes, thread 0 finds nothing left and clears it; then future 0 and thread 1 go to
sleep. -/
def clearedAndWaiting : List (Agent × Label) :=
  Io.eventTurn Io.readable 0 0 ++ Io.captureRun 0 .READABLE ++ Io.clearRun 0 0 ++
    [(.thread 0, .step)] ++ Io.pendingRun 0 7 ++ [(.thread 1, .pollReadiness .read 9)] ++
    List.replicate 5 (.thread 1, .step)

/-- More data comes while they sleep. -/
def readTwice : List Action :=
  .arrive .read :: clearedAndWaiting.map ofIo ++ [.arrive .read]

def moreData : State :=
  ((machine fun _ ↦ .READABLE).exec quiet readTwice).get (by decide +kernel)

theorem known_moreData : moreData.kernel.ready .read = true ∧
    (moreData.kernel.edge .read = true ∨ (moreData.io.pc .driver).Carries Direction.read.mask ∨
      (Direction.read.mask &&& moreData.io.shared.word.readiness).isEmpty = false) := by
  have hready : moreData.kernel.ready .read = true := by decide +kernel
  exact ⟨hready, known_of_ready _ _ _
    ((Machine.ReachableUnder.init init_quiet).of_isSome_exec _ (by decide +kernel) _) hready⟩

/-- The driver has reported it, too. -/
def bothWoken : State :=
  ((machine fun _ ↦ .READABLE).exec quiet
    (readTwice ++ (Io.eventTurn Io.readable 1 1).map ofIo)).get (by decide +kernel)

theorem heard_bothWoken : bothWoken.kernel.ready .read = true ∧
    (Woken bothWoken.io.shared (bothWoken.io.shared.stored 0) ∨ Coming bothWoken .read) ∧
    (Woken bothWoken.io.shared ⟨9, 0, 2⟩ ∨ Coming bothWoken .read) := by
  have hready : bothWoken.kernel.ready .read = true := by decide +kernel
  have hcaller : bothWoken.io.shared.caller .read = some ⟨1, ⟨9, 0, 2⟩, true⟩ := by decide +kernel
  obtain ⟨hfuture, hthread⟩ := heard_of_ready (fun _ ↦ .READABLE) bothWoken .read
    ((Machine.ReachableUnder.init init_quiet).of_isSome_exec _ (by decide +kernel) _) hready
  exact ⟨hready, hfuture 0 (by decide +kernel) (by decide), hthread _ hcaller rfl⟩

end ArcDischarge.Socket
