import ArcDischarge.Slab.Occupancy
import Mathlib.Data.Set.Function

/-!
# The accounts of the slab

The occupied slots should be those of the registrations that are alive, one slot each; while an
`add_source` is on its way, its slot counts as well. An `add_source` that fails should leave the
slab as it has found it.

Where `registry.register` fails, `add_source` returns early. The slot it has occupied is freed by
the destructor of a `Registration` only, and none is made. The accounts are right in exactly the
runs in which this does not happen.
-/

namespace ArcDischarge.Slab

open Io (Interest)

/-- The key of a `Registration`, or of an `add_source` that is about to register its source. -/
def InUse (c : State) (key : Key) : Prop :=
  key ∈ c.shared.registrations ∨ ∃ k, c.pc (.source k) = .entry key

structure Accounted (c : State) : Prop where
  /-- The keys in use and the occupied slots are in bijection. -/
  slots : Set.BijOn Key.index {key | InUse c key} {j | c.shared.phase j = .present}
  /-- No two registrations have one key. -/
  nodup : c.shared.registrations.Nodup
  /-- Nor do a registration and a call, or two calls. -/
  pending : ∀ k key, c.pc (.source k) = .entry key → key ∉ c.shared.registrations ∧
    ∀ k', c.pc (.source k') = .entry key → k' = k
  /-- No `slab.get(key).unwrap()` has failed. -/
  found : ∀ i, c.pc i ≠ .panicked

/-- An `add_source` that returns with an error leaves the slab as it was: the slot that it has
taken, if any, is free again. -/
def Undoes (c : State) (a : Agent × Label) (d : State) : Prop :=
  (a.2 = .create none → d.shared = c.shared) ∧
    (a.2 = .register false → ∀ key, c.pc a.1 = .entry key → d.shared.phase key.index = .free)

/-- The step is not a `registry.register` that fails. -/
def Registers (c : State) (a : Agent × Label) : Prop :=
  ∀ key, c.pc a.1 = .entry key → a.2 ≠ .register false

/-- Every occupied slot has its owner. -/
def Owned (c : State) : Prop :=
  ∀ j, c.shared.phase j = .present → ∃ key, InUse c key ∧ key.index = j

variable {interest : ℕ → Interest}

/-- A slot that is occupied after a step was so before, or an `add_source` has just occupied it. -/
theorem Move.present {m m' : Shared} {i : Agent} {p p' : Pc} {a : Label} {j : ℕ}
    (hmove : Move interest m i p a m' p') (hj : m'.phase j = .present) :
    m.phase j = .present ∨ ∃ k key, i = .source k ∧ p' = .entry key ∧ key.index = j := by
  have hupdate {j' : ℕ} {phase : Phase} (hphase : phase ≠ .present)
      (h : Function.update m.phase j' phase j = .present) : m.phase j = .present := by
    by_cases hne : j = j'
    · rw [hne, Function.update_self] at h
      exact absurd h hphase
    · rwa [Function.update_of_ne hne] at h
  cases hmove with
  | @create k j' hfree =>
    by_cases hne : j = j'
    · exact .inr ⟨k, _, rfl, rfl, hne.symm⟩
    · left
      change Function.update m.phase j' .present j = .present at hj
      rwa [Function.update_of_ne hne] at hj
  | dropMarks | dropClears | driverClears => exact .inl (hupdate (by simp) hj)
  | _ => exact .inl hj

/-- Keys stay in use: a registration until it is dropped, a call until it has its registration. -/
theorem InUse.move {c : State} {i : Agent} {a : Label} {m : Shared} {p : Pc} {key : Key}
    (h : InUse c key) (hmove : Move interest c.shared i (c.pc i) a m p)
    (hregisters : Registers c (i, a)) (hpresent : m.phase key.index = .present) :
    InUse ⟨m, Function.update c.pc i p⟩ key := by
  rcases h with h | ⟨k, hk⟩
  · left
    generalize c.pc i = q at hmove
    cases hmove with
    | register => exact List.mem_cons_of_mem _ h
    | @dropMarks _ key' | @dropClears _ key' =>
      -- the key that is dropped has its slot no longer
      refine (List.mem_erase_of_ne ?_).mpr h
      rintro rfl
      change Function.update c.shared.phase key.index _ key.index = .present at hpresent
      rw [Function.update_self] at hpresent
      cases hpresent
    | _ => exact h
  · by_cases hi : .source k = i
    · subst hi
      rw [hk] at hmove
      cases hmove with
      | register => exact .inl List.mem_cons_self
      | registerFails => exact absurd rfl (hregisters key hk)
    · exact .inr ⟨k, (Function.update_of_ne hi _ _).trans hk⟩

theorem Owned.step {c d : State} {a : Agent × Label} (h : Owned c) (hregisters : Registers c a)
    (hs : (machine interest).step c a = some d) : Owned d := by
  obtain ⟨m, p, hstep, rfl⟩ := System.machine_step_eq_some.mp hs
  have hmove := move_of_step hstep
  intro j hj
  rcases hmove.present hj with hbefore | ⟨k, key, hi, hp, hindex⟩
  · obtain ⟨key, hkey, rfl⟩ := h j hbefore
    exact ⟨key, hkey.move hmove hregisters hj, rfl⟩
  · refine ⟨key, .inr ⟨k, ?_⟩, hindex⟩
    rw [← hi, ← hp]
    exact Function.update_self ..

theorem InUse.occupied {c : State} {key : Key} (hc : (machine interest).Reachable c)
    (h : InUse c key) : c.shared.Occupied key := by
  have hholds := holds_of_reachable hc
  rcases h with h | ⟨k, hk⟩
  · exact hholds.1.occupied key h
  · exact (hholds.agent hk).1

theorem accounted_of_owned {c : State} (hc : (machine interest).Reachable c) (h : Owned c) :
    Accounted c := by
  have hholds := holds_of_reachable hc
  refine ⟨⟨fun key hkey ↦ (hkey.occupied hc).1, ?_, h⟩, hholds.1.nodup, ?_, ?_⟩
  · intro key hkey key' hkey' hindex
    exact (InUse.occupied hc hkey).eq (InUse.occupied hc hkey') hindex
  · intro k key hk
    have hok := hholds.agent hk
    refine ⟨hok.2.1, fun k' hk' ↦ ?_⟩
    exact Option.some.inj ((hholds.agent hk').2.2.symm.trans hok.2.2)
  · intro i hi
    have hok := hholds.agent hi
    cases i with
    | source k => exact hok
    | io b => cases b <;> exact hok

/-- A step into a state with accounts is no failing `register`: its slot would have no owner. -/
theorem registers_of_accounted {c : State} {a : Agent × Label}
    (hc : (machine interest).Reachable c)
    (h : ∀ d, (machine interest).step c a = some d → Accounted d) : Registers c a := by
  obtain ⟨i, a⟩ := a
  rintro key hkey rfl
  have hholds := holds_of_reachable hc
  have hok := hholds.agent hkey
  cases i with
  | io b => cases b <;> exact hok
  | source k =>
    have hstep : step interest (.source k) c.shared (c.pc (.source k)) (.register false) =
        some (c.shared, .idle) := by
      rw [hkey]
      rfl
    have haccounted := h _ (System.machine_step_eq_some.mpr ⟨_, _, hstep, rfl⟩)
    -- the slot stays occupied, so somebody has its key: a registration, or another source
    obtain ⟨key', hin, hindex⟩ := haccounted.slots.surjOn hok.1.1
    rcases hin with hin | ⟨k', hk'⟩
    · have heq := (hholds.1.occupied key' hin).eq hok.1 hindex
      exact hok.2.1 (heq ▸ hin)
    · change Function.update c.pc (.source k) .idle (.source k') = .entry key' at hk'
      by_cases hne : Agent.source k' = .source k
      · rw [hne, Function.update_self] at hk'
        cases hk'
      · rw [Function.update_of_ne hne] at hk'
        have hok' := hholds.agent hk'
        have hmaker := hok'.2.2
        rw [hindex, hok.2.2] at hmaker
        exact hne (Option.some.inj hmaker ▸ rfl)

theorem undoes_of_registers {c d : State} {a : Agent × Label} (h : Registers c a)
    (hs : (machine interest).step c a = some d) : Undoes c a d := by
  obtain ⟨i, a⟩ := a
  obtain ⟨m, p, hstep, rfl⟩ := System.machine_step_eq_some.mp hs
  refine ⟨?_, fun ha key hkey ↦ absurd ha (h key hkey)⟩
  rintro rfl
  have hmove := move_of_step hstep
  generalize c.pc i = q at hmove
  cases hmove
  rfl

/-- **The slots are accounted for**, and a failed `add_source` leaves no trace, in exactly those
runs in which no `add_source` that has occupied a slot fails to register its source. -/
theorem accounted_iff (interest : ℕ → Interest) (as : List (Agent × Label)) :
    (machine interest).Along
        (fun c a ↦ ∀ d, (machine interest).step c a = some d → Accounted d ∧ Undoes c a d)
        State.new as ↔
      (machine interest).Along Registers State.new as := by
  have haccounted := Machine.along_iff (m := machine interest) (P := Accounted) (G := Registers)
    (I := fun c ↦ (machine interest).Reachable c ∧ Owned c) (s := State.new)
    ⟨.init rfl, fun j hj ↦ by cases hj⟩
    (fun c a d hc hG hs ↦ ⟨.step hc.1 trivial hs, hc.2.step hG hs⟩)
    (fun c hc ↦ accounted_of_owned hc.1 hc.2) (fun c a hc h ↦ registers_of_accounted hc.1 h) as
  constructor
  · intro h
    exact haccounted.mp (h.mono fun c a h d hs ↦ (h d hs).1)
  · intro h
    refine ((haccounted.mpr h).and h).mono fun c a h d hs ↦ ?_
    exact ⟨h.1 d hs, undoes_of_registers h.2 hs⟩

/-- Source 0 gets slot 0, and `registry.register` fails. -/
def failedRegister : List (Agent × Label) :=
  [(.source 0, .create (some 0)), (.source 0, .register false)]

def afterFailedRegister : State :=
  ((machine fun _ ↦ .READABLE).exec .new failedRegister).get (by decide)

/-- Slot 0 stays occupied, and there is no registration. -/
theorem not_accounted_afterFailedRegister :
    ¬∀ c : State, (machine fun _ ↦ .READABLE).Reachable c → Accounted c := by
  intro h
  have hexec : (machine fun _ ↦ .READABLE).exec .new failedRegister = some afterFailedRegister :=
    (Option.some_get _).symm
  have haccounted := h afterFailedRegister (.of_exec (.init rfl) hexec)
  have hpresent : afterFailedRegister.shared.phase 0 = .present := by decide
  obtain ⟨key, hkey, -⟩ := haccounted.slots.surjOn hpresent
  rcases hkey with hkey | ⟨k, hk⟩
  · have hnone : afterFailedRegister.shared.registrations = [] := by decide
    rw [hnone] at hkey
    cases hkey
  · have hidle := System.forall_pc_of_exec (Q := fun _ p ↦ p = .idle) hexec (fun _ _ ↦ rfl)
      (by decide) (.source k)
    rw [hk] at hidle
    cases hidle

end ArcDischarge.Slab
