import ArcDischarge.Slab.Moves
import Mathlib.Data.List.Basic

/-!
# Who uses which slot

A slot is occupied for a registration, or for an `add_source` that has not made its registration
yet. Calls and futures on a slot keep its registration alive, and the driver's reference keeps the
slot from being used again. So every `slab.get(key).unwrap()` finds its slot.

What breaks the accounts is an `add_source` whose `register` fails: it has occupied a slot, returns
early, and the destructor that would free the slot belongs to a `Registration` that is never made.
-/

namespace ArcDischarge.Slab

open Io (Interest Ready Word Waker Event)

/-- The shared part of the invariant. -/
structure Sound (m : Shared) : Prop where
  occupied : ∀ key ∈ m.registrations, m.Occupied key
  nodup : m.registrations.Nodup
  borrowed : ∀ j, m.borrows j ≠ [] → ∃ key ∈ m.registrations, key.index = j
  driver : ∀ j, m.driverAt = some j → m.phase j ≠ .free

/-- What an agent relies on, where it stands. -/
def Ok (m : Shared) : Agent → Pc → Prop
  | .source k, .entry key =>
    m.Occupied key ∧ key ∉ m.registrations ∧ m.maker key.index = some k
  | .io (.thread k), .call key _ => key ∈ m.registrations ∧ .thread k ∈ m.borrows key.index
  | .io (.future k), .call key p =>
    p = .dropped ∨ (key ∈ m.registrations ∧ .future k ∈ m.borrows key.index)
  | .io .driver, .call key _ =>
    m.driverAt = some key.index ∧ m.occupancy key.index = key.occupancy
  | .io .driver, .idle => m.driverAt = none
  | .io (.thread _), .idle | .io (.future _), .idle | .source _, .idle => True
  | .io (.future _), .leaked _ _ => True
  | _, _ => False

section

variable {interest : ℕ → Interest} {m m' : Shared} {p p' q : Pc} {a : Label} {i j : Agent}

theorem Shared.Occupied.eq {key key' : Key} (h : m.Occupied key) (h' : m.Occupied key')
    (hindex : key.index = key'.index) : key = key' := by
  cases key
  cases key'
  obtain rfl : _ = _ := hindex
  exact congrArg _ (h.2.symm.trans h'.2)

/-- The registration in a slot is the slot's occupant. -/
theorem Sound.eq_of_index (h : Sound m) {key key' : Key} (hkey : key ∈ m.registrations)
    (hkey' : key' ∈ m.registrations) (hindex : key.index = key'.index) : key = key' :=
  (h.occupied key hkey).eq (h.occupied key' hkey') hindex

theorem Shared.Occupied.of_eq {key : Key} (h : m.Occupied key)
    (hphase : m'.phase key.index = m.phase key.index)
    (hoccupancy : m'.occupancy key.index = m.occupancy key.index) : m'.Occupied key :=
  ⟨hphase.trans h.1, hoccupancy.trans h.2⟩

/-- The slot of a registration is `present`. -/
theorem Sound.index_ne (h : Sound m) {key : Key} {j : ℕ} (hkey : key ∈ m.registrations)
    (hj : m.phase j ≠ .present) : key.index ≠ j := by
  rintro rfl
  exact hj (h.occupied key hkey).1

/-- The other registrations, after one is dropped. -/
theorem Sound.mem_erase (h : Sound m) {key key' : Key} (hkey : key ∈ m.registrations) :
    key' ∈ m.registrations.erase key ↔ key' ∈ m.registrations ∧ key'.index ≠ key.index := by
  rw [h.nodup.mem_erase_iff]
  constructor
  · exact fun hmem ↦ ⟨hmem.2, fun hindex ↦ hmem.1 (h.eq_of_index hmem.2 hkey hindex)⟩
  · exact fun hmem ↦ ⟨fun heq ↦ hmem.2 (heq ▸ rfl), hmem.1⟩

/-! ## The steps -/

theorem Sound.create (h : Sound m) {k j : ℕ} (hfree : m.phase j = .free) :
    Sound (m.create k j) := by
  refine ⟨fun key hkey ↦ ?_, h.nodup, h.borrowed, fun j' hj' ↦ ?_⟩
  · have hne : key.index ≠ j := h.index_ne hkey (by simp [hfree])
    exact (h.occupied key hkey).of_eq (Function.update_of_ne hne _ _)
      (Function.update_of_ne hne _ _)
  · change Function.update m.phase j .present j' ≠ .free
    by_cases hne : j' = j
    · simp [hne]
    · rw [Function.update_of_ne hne]
      exact h.driver j' hj'

/-- A registration is dropped, and the phase of its slot changes. -/
theorem Sound.drop (h : Sound m) {key : Key} (hkey : key ∈ m.registrations)
    (hborrows : m.borrows key.index = []) {phase : Phase}
    (hphase : phase = .free → m.driverAt ≠ some key.index)
    (hregs : m'.registrations = m.registrations.erase key)
    (hphases : m'.phase = Function.update m.phase key.index phase)
    (hoccupancy : m'.occupancy = m.occupancy) (hborrows' : m'.borrows = m.borrows)
    (hat : m'.driverAt = m.driverAt) : Sound m' := by
  refine ⟨fun key' hkey' ↦ ?_, ?_, fun j hj ↦ ?_, fun j hj ↦ ?_⟩
  · rw [hregs, h.mem_erase hkey] at hkey'
    refine (h.occupied key' hkey'.1).of_eq ?_ (by rw [hoccupancy])
    rw [hphases, Function.update_of_ne hkey'.2]
  · rw [hregs]
    exact h.nodup.erase key
  · rw [hborrows'] at hj
    -- what is borrowed belongs to another registration
    obtain ⟨key', hkey', rfl⟩ := h.borrowed j hj
    refine ⟨key', ?_, rfl⟩
    rw [hregs, h.mem_erase hkey]
    exact ⟨hkey', fun hindex ↦ hj (hindex ▸ hborrows)⟩
  · rw [hat] at hj
    rw [hphases]
    by_cases hne : j = key.index
    · subst hne
      rw [Function.update_self]
      exact fun hfree ↦ hphase hfree hj
    · rw [Function.update_of_ne hne]
      exact h.driver j hj

/-- Somebody borrows a registration that is alive. -/
theorem Sound.borrow (h : Sound m) {key : Key} {b : Io.Agent} (hkey : key ∈ m.registrations) :
    Sound (m.borrow b key.index) := by
  refine ⟨h.occupied, h.nodup, fun j hj ↦ ?_, h.driver⟩
  by_cases hne : j = key.index
  · exact ⟨key, hkey, hne.symm⟩
  · refine h.borrowed j ?_
    have hsame : (m.borrow b key.index).borrows j = m.borrows j := Function.update_of_ne hne _ _
    rwa [hsame] at hj

theorem Sound.unborrow (h : Sound m) {b : Io.Agent} {j : ℕ} : Sound (m.unborrow b j) := by
  refine ⟨h.occupied, h.nodup, fun j' hj' ↦ h.borrowed j' fun hnil ↦ hj' ?_, h.driver⟩
  change Function.update m.borrows j _ j' = []
  by_cases hne : j' = j
  · subst hne
    rw [Function.update_self, hnil, List.erase_nil]
  · rw [Function.update_of_ne hne, hnil]

theorem Sound.move (h : Sound m) (hi : Ok m i p) (hmove : Move interest m i p a m' p') :
    Sound m' := by
  have hset (b : Io.Agent) (j : ℕ) (q : Io.Pc) (e : Io.Shared) : Sound (m.setEntry b j q e) :=
    ⟨h.occupied, h.nodup, h.borrowed, h.driver⟩
  cases hmove with
  | create hfree => exact h.create hfree
  | @register k key =>
    obtain ⟨hoccupied, hnew, -⟩ := hi
    refine ⟨fun key' hkey' ↦ ?_, List.nodup_cons.mpr ⟨hnew, h.nodup⟩, fun j hj ↦ ?_, h.driver⟩
    · rcases List.mem_cons.mp hkey' with rfl | hkey'
      · exact hoccupied
      · exact h.occupied key' hkey'
    · obtain ⟨key', hkey', hindex⟩ := h.borrowed j hj
      exact ⟨key', List.mem_cons_of_mem _ hkey', hindex⟩
  | dropMarks hkey hborrows hat =>
    exact h.drop hkey hborrows (by simp) rfl rfl rfl rfl rfl
  | dropClears hkey hborrows hat hword =>
    exact h.drop hkey hborrows (fun _ ↦ hat) rfl rfl rfl rfl rfl
  | @event key ev hget =>
    refine ⟨h.occupied, h.nodup, h.borrowed, fun j hj ↦ ?_⟩
    obtain rfl : key.index = j := Option.some.inj hj
    change m.phase key.index ≠ .free
    rw [hget.1]
    simp
  | driverDone => exact ⟨h.occupied, h.nodup, h.borrowed, by simp⟩
  | @driverClears key q e word _ hphase hword =>
    -- the slot was marked, so its registration is gone
    refine ⟨fun key' hkey' ↦ ?_, h.nodup, h.borrowed, by simp⟩
    have hne : key'.index ≠ key.index := h.index_ne hkey' (by simp [hphase])
    exact (h.occupied key' hkey').of_eq (Function.update_of_ne hne _ _) rfl
  | call hkey => exact (hset _ _ _ _).borrow hkey
  | threadDone | futureDrop => exact (hset _ _ _ _).unborrow
  | leak => exact h.unborrow
  | readiness hkey => exact h.borrow hkey
  | _ => exact ⟨h.occupied, h.nodup, h.borrowed, h.driver⟩

theorem mem_borrow_self {b : Io.Agent} {j : ℕ} : b ∈ (m.borrow b j).borrows j := by
  change b ∈ Function.update m.borrows j _ j
  rw [Function.update_self]
  exact List.mem_cons_self

theorem Ok.move (h : Sound m) (hi : Ok m i p) (hmove : Move interest m i p a m' p') :
    Ok m' i p' := by
  cases hmove with
  | @create k j hfree =>
    refine ⟨⟨Function.update_self .., Function.update_self ..⟩, fun hkey ↦ ?_,
      Function.update_self ..⟩
    have hpresent := (h.occupied _ hkey).1
    rw [hfree] at hpresent
    cases hpresent
  | event hget => exact ⟨rfl, hget.2⟩
  | turn | noEvent | driver | thread => exact hi
  | driverDone | driverClears => exact rfl
  | call hkey => exact ⟨hkey, mem_borrow_self⟩
  -- `slab.get(key).unwrap()` does not panic: the registration keeps the slot
  | callFails hkey hget => exact hget (h.occupied _ hkey)
  | readiness hkey => exact .inr ⟨hkey, mem_borrow_self⟩
  | future hio =>
    rcases hi with rfl | hi
    · cases hio with
      | drop hp | abort hp => simp at hp
    · exact .inr hi
  | pollFails hio hget =>
    rcases hi with rfl | hi
    · cases hio
    · exact hget (h.occupied _ hi.1)
  | futureDrop => exact .inl rfl
  | full | register | registerFails | dropMarks | dropClears | threadDone | leak => trivial

/-! ## The other agents -/

/-- A slot that is not registered yet stays as `create` has left it. -/
theorem Move.occupied (h : Sound m) (hmove : Move interest m i p a m' p') {key : Key}
    (hkey : m.Occupied key) (hnew : key ∉ m.registrations) :
    m'.Occupied key ∧ m'.maker key.index = m.maker key.index := by
  cases hmove with
  | @create k j hfree =>
    have hne : key.index ≠ j := by
      rintro rfl
      rw [hkey.1] at hfree
      cases hfree
    exact ⟨hkey.of_eq (Function.update_of_ne hne ..) (Function.update_of_ne hne ..),
      Function.update_of_ne hne ..⟩
  | dropMarks hmem | dropClears hmem =>
    have hne : key.index ≠ _ := fun hindex ↦ hnew (hkey.eq (h.occupied _ hmem) hindex ▸ hmem)
    exact ⟨hkey.of_eq (Function.update_of_ne hne ..) rfl, rfl⟩
  | @driverClears key' _ _ _ _ hphase =>
    have hne : key.index ≠ key'.index := by
      intro hindex
      rw [← hindex, hkey.1] at hphase
      cases hphase
    exact ⟨hkey.of_eq (Function.update_of_ne hne ..) rfl, rfl⟩
  | _ => exact ⟨hkey, rfl⟩

/-- Only its own `add_source` registers a slot. -/
theorem Move.not_mem_registrations (hi : Ok m i p) (hmove : Move interest m i p a m' p')
    {key : Key} (hnew : key ∉ m.registrations) (hmaker : ∀ k, i = .source k →
      m.maker key.index ≠ some k) : key ∉ m'.registrations := by
  cases hmove with
  | register =>
    rw [List.mem_cons, not_or]
    refine ⟨?_, hnew⟩
    rintro rfl
    exact hmaker _ rfl hi.2.2
  | dropMarks | dropClears => exact fun hmem ↦ hnew (List.mem_of_mem_erase hmem)
  | _ => exact hnew

/-- A registration that is borrowed is not dropped. -/
theorem Move.mem_registrations (h : Sound m) (hmove : Move interest m i p a m' p') {key : Key}
    {b : Io.Agent} (hkey : key ∈ m.registrations) (hb : b ∈ m.borrows key.index) :
    key ∈ m'.registrations := by
  cases hmove with
  | register => exact List.mem_cons_of_mem _ hkey
  | dropMarks hmem hborrows | dropClears hmem hborrows =>
    refine (h.mem_erase hmem).mpr ⟨hkey, fun hindex ↦ ?_⟩
    rw [hindex, hborrows] at hb
    cases hb
  | _ => exact hkey

theorem mem_borrow {b b' : Io.Agent} {j j' : ℕ} (hb : b ∈ m.borrows j) :
    b ∈ (m.borrow b' j').borrows j := by
  change b ∈ Function.update m.borrows j' _ j
  by_cases hj : j = j'
  · subst hj
    rw [Function.update_self]
    exact List.mem_cons_of_mem _ hb
  · rwa [Function.update_of_ne hj]

theorem mem_unborrow {b b' : Io.Agent} {j j' : ℕ} (hb : b ∈ m.borrows j) (hne : b ≠ b') :
    b ∈ (m.unborrow b' j').borrows j := by
  change b ∈ Function.update m.borrows j' _ j
  by_cases hj : j = j'
  · subst hj
    rw [Function.update_self]
    exact (List.mem_erase_of_ne hne).mpr hb
  · rwa [Function.update_of_ne hj]

theorem Move.mem_borrows (hmove : Move interest m i p a m' p') {b : Io.Agent} {j : ℕ}
    (hb : b ∈ m.borrows j) (hne : Agent.io b ≠ i) : b ∈ m'.borrows j := by
  cases hmove with
  | call | readiness => exact mem_borrow hb
  | threadDone | futureDrop | leak => exact mem_unborrow hb fun heq ↦ hne (heq ▸ rfl)
  | _ => exact hb

/-- Nobody else takes or drops the reference of the driver, and its slot is not used again. -/
theorem Move.driverAt (h : Sound m) (hmove : Move interest m i p a m' p') (hi : i ≠ .io .driver) :
    m'.driverAt = m.driverAt ∧ ∀ j, m.driverAt = some j → m'.occupancy j = m.occupancy j := by
  cases hmove with
  | create hfree =>
    refine ⟨rfl, fun j hj ↦ Function.update_of_ne ?_ _ _⟩
    rintro rfl
    exact h.driver j hj hfree
  | turn | event | noEvent | driver | driverDone | driverClears => exact absurd rfl hi
  | _ => exact ⟨rfl, fun _ _ ↦ rfl⟩

theorem Ok.other (h : Sound m) (hi : Ok m i p) (hj : Ok m j q) (hne : j ≠ i)
    (hmove : Move interest m i p a m' p') : Ok m' j q := by
  cases j with
  | source k =>
    cases q with
    | entry key =>
      obtain ⟨hoccupied, hnew, hmaker⟩ := hj
      obtain ⟨hoccupied', hmaker'⟩ := hmove.occupied h hoccupied hnew
      refine ⟨hoccupied', hmove.not_mem_registrations hi hnew fun k' hk' hmade ↦ hne ?_,
        hmaker'.trans hmaker⟩
      rw [hk', Option.some.inj (hmaker.symm.trans hmade)]
    | _ => exact hj
  | io b =>
    cases b with
    | driver =>
      have hat := hmove.driverAt h hne.symm
      cases q with
      | idle => exact hat.1.trans hj
      | call key q => exact ⟨hat.1.trans hj.1, (hat.2 _ hj.1).trans hj.2⟩
      | _ => exact hj
    | thread k =>
      cases q with
      | call key q =>
        exact ⟨hmove.mem_registrations h hj.1 hj.2, hmove.mem_borrows hj.2 hne⟩
      | _ => exact hj
    | future k =>
      cases q with
      | call key q =>
        rcases hj with hq | hj
        · exact .inl hq
        · exact .inr ⟨hmove.mem_registrations h hj.1 hj.2, hmove.mem_borrows hj.2 hne⟩
      | _ => exact hj

end

theorem holds_of_reachable {interest : ℕ → Interest} {c : State}
    (h : (machine interest).Reachable c) :
    System.Holds Sound (fun i m p ↦ Ok m i p) c := by
  refine System.holds_of_reachableUnder h ?_ ?_ ?_
  · rintro c rfl
    refine ⟨⟨by simp [State.new], List.nodup_nil, by simp [State.new], by simp [State.new]⟩, ?_⟩
    intro i
    cases i with
    | source k => trivial
    | io b => cases b <;> trivial
  · intro c i a m p _ hc _ hstep
    exact ⟨hc.1.move (hc.2 i) (move_of_step hstep), (hc.2 i).move hc.1 (move_of_step hstep)⟩
  · intro c i a m p _ hc _ hstep j hj
    exact (hc.2 i).other hc.1 (hc.2 j) hj (move_of_step hstep)

end ArcDischarge.Slab
