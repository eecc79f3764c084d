import ArcDischarge.Slab.Model

/-!
# What a step of the slab can do

The step function inverted once: one constructor for each branch of `add_source`, of the drop of a
`Registration`, of `poll_timeout`, and of the calls and futures that use a registration. What
happens inside a `ScheduledIo` is a move of its own machine.
-/

namespace ArcDischarge.Slab

open Io (Interest Ready Word Waker Event)

/-- The transitions of an agent, one constructor for each branch. -/
inductive Move (interest : ℕ → Interest) (m : Shared) :
    Agent → Pc → Label → Shared → Pc → Prop where
  | full {k : ℕ} : Move interest m (.source k) .idle (.create none) m .idle
  | create {k j : ℕ} (h : m.phase j = .free) :
      Move interest m (.source k) .idle (.create (some j)) (m.create k j)
        (.entry ⟨j, m.occupancy j + 1⟩)
  | register {k : ℕ} {key : Key} : Move interest m (.source k) (.entry key) (.register true)
      { m with registrations := key :: m.registrations } .idle
  | registerFails {k : ℕ} {key : Key} :
      Move interest m (.source k) (.entry key) (.register false) m .idle
  | dropMarks {k : ℕ} {key : Key} (hkey : key ∈ m.registrations)
      (hborrows : m.borrows key.index = []) (hat : m.driverAt = some key.index) :
      Move interest m (.source k) .idle (.drop key)
        { m with registrations := m.registrations.erase key
                 phase := Function.update m.phase key.index .marked } .idle
  | dropClears {k : ℕ} {key : Key} {word : Word} (hkey : key ∈ m.registrations)
      (hborrows : m.borrows key.index = []) (hat : m.driverAt ≠ some key.index)
      (hword : (m.entry key.index).word.cleared = some word) :
      Move interest m (.source k) .idle (.drop key)
        { m with registrations := m.registrations.erase key
                 entry := Function.update m.entry key.index { m.entry key.index with word }
                 phase := Function.update m.phase key.index .free } .idle
  | turn : Move interest m (.io .driver) .idle .turn
      { m with tick := m.tick + 1#8, turn := m.turn + 1 } .idle
  | event {key : Key} {event : Event} (h : m.Occupied key) :
      Move interest m (.io .driver) .idle (.event key event)
        (m.deliver key.index (.fromMio event)) (.call key (.setLoad (.fromMio event)))
  | noEvent {key : Key} {event : Event} :
      Move interest m (.io .driver) .idle (.event key event) m .idle
  | driver {key : Key} {p p' : Io.Pc} {e : Io.Shared}
      (h : Io.Move interest (m.entry key.index) .driver p .step e p') (hp' : p' ≠ .idle) :
      Move interest m (.io .driver) (.call key p) (.io .step)
        (m.setEntry .driver key.index p e) (.call key p')
  | driverDone {key : Key} {p : Io.Pc} {e : Io.Shared}
      (h : Io.Move interest (m.entry key.index) .driver p .step e .idle)
      (hphase : m.phase key.index ≠ .marked) :
      Move interest m (.io .driver) (.call key p) (.io .step)
        { m.setEntry .driver key.index p e with driverAt := none } .idle
  | driverClears {key : Key} {p : Io.Pc} {e : Io.Shared} {word : Word}
      (h : Io.Move interest (m.entry key.index) .driver p .step e .idle)
      (hphase : m.phase key.index = .marked) (hword : e.word.cleared = some word) :
      Move interest m (.io .driver) (.call key p) (.io .step)
        { m.setEntry .driver key.index p { e with word } with
          driverAt := none, phase := Function.update m.phase key.index .free } .idle
  | call {k : ℕ} {key : Key} {a : Io.Label} {p' : Io.Pc} {e : Io.Shared}
      (hkey : key ∈ m.registrations) (hget : m.Occupied key)
      (h : Io.Move interest (m.entry key.index) (.thread k) .idle a e p') :
      Move interest m (.io (.thread k)) .idle (.call key a)
        ((m.setEntry (.thread k) key.index .idle e).borrow (.thread k) key.index) (.call key p')
  | callFails {k : ℕ} {key : Key} {a : Io.Label} (hkey : key ∈ m.registrations)
      (hget : ¬m.Occupied key) : Move interest m (.io (.thread k)) .idle (.call key a) m .panicked
  | thread {k : ℕ} {key : Key} {p p' : Io.Pc} {e : Io.Shared}
      (h : Io.Move interest (m.entry key.index) (.thread k) p .step e p') (hp' : p' ≠ .idle) :
      Move interest m (.io (.thread k)) (.call key p) (.io .step)
        (m.setEntry (.thread k) key.index p e) (.call key p')
  | threadDone {k : ℕ} {key : Key} {p : Io.Pc} {e : Io.Shared}
      (h : Io.Move interest (m.entry key.index) (.thread k) p .step e .idle) :
      Move interest m (.io (.thread k)) (.call key p) (.io .step)
        ((m.setEntry (.thread k) key.index p e).unborrow (.thread k) key.index) .idle
  | readiness {k : ℕ} {key : Key} (hkey : key ∈ m.registrations) :
      Move interest m (.io (.future k)) .idle (.readiness key)
        (m.borrow (.future k) key.index) (.call key .init)
  | future {k : ℕ} {key : Key} {a : Io.Label} {p p' : Io.Pc} {e : Io.Shared}
      (h : Io.Move interest (m.entry key.index) (.future k) p a e p') (hp' : p' ≠ .dropped) :
      Move interest m (.io (.future k)) (.call key p) (.io a)
        (m.setEntry (.future k) key.index p e) (.call key p')
  | pollFails {k : ℕ} {key : Key} {waker : Waker} {p p' : Io.Pc} {e : Io.Shared}
      (h : Io.Move interest (m.entry key.index) (.future k) p (.poll waker) e p')
      (hget : ¬m.Occupied key) :
      Move interest m (.io (.future k)) (.call key p) (.io (.poll waker)) m .panicked
  | futureDrop {k : ℕ} {key : Key} {p : Io.Pc} {e : Io.Shared}
      (h : Io.Move interest (m.entry key.index) (.future k) p .drop e .dropped) :
      Move interest m (.io (.future k)) (.call key p) (.io .drop)
        ((m.setEntry (.future k) key.index p e).unborrow (.future k) key.index)
        (.call key .dropped)
  | leak {k : ℕ} {key : Key} {p : Io.Pc} (h : p = .init ∨ p = .waiting ∨ p = .done) :
      Move interest m (.io (.future k)) (.call key p) .leak
        (m.unborrow (.future k) key.index) (.leaked key p)

variable {interest : ℕ → Interest} {m m' : Shared} {p p' : Pc} {a : Label} {k : ℕ}

theorem onEntry_eq_some {i : Io.Agent} {j : ℕ} {q : Io.Pc} {b : Io.Label} {r : Shared × Io.Pc} :
    m.onEntry interest i j q b = some r → ∃ e, Io.Move interest (m.entry j) i q b e r.2 ∧
      r.1 = m.setEntry i j q e := by
  intro h
  obtain ⟨s, hs, rfl⟩ := Option.map_eq_some_iff.mp h
  exact ⟨s.1, Io.move_of_step hs, rfl⟩

theorem move_of_sourceStep (h : sourceStep k m p a = some (m', p')) :
    Move interest m (.source k) p a m' p' := by
  unfold sourceStep at h
  split at h
  · cases h
    exact .full
  · split at h <;> cases h
    exact .create ‹_›
  · cases h
    exact .register
  · cases h
    exact .registerFails
  · rename_i key
    split at h
    · rename_i hdrop
      rw [Option.some.injEq] at h
      by_cases hat : m.driverAt = some key.index
      · rw [Shared.drop, if_pos hat] at h
        cases h
        exact .dropMarks hdrop.1 hdrop.2 hat
      · obtain ⟨word, hword, -⟩ := (m.entry key.index).word.exists_cleared
        rw [Shared.drop, if_neg hat, Shared.clear, hword] at h
        cases h
        exact .dropClears hdrop.1 hdrop.2 hat hword
    · cases h
  · cases h

theorem move_of_driverStep (h : driverStep interest m p a = some (m', p')) :
    Move interest m (.io .driver) p a m' p' := by
  unfold driverStep at h
  split at h
  · cases h
    exact .turn
  · split at h <;> cases h
    · exact .event ‹_›
    · exact .noEvent
  · rename_i key q
    obtain ⟨r, hr, heq⟩ := Option.map_eq_some_iff.mp h
    obtain ⟨e, hmove, hset⟩ := onEntry_eq_some hr
    split at heq
    · rename_i hidle
      rw [hidle] at hmove
      rw [hset] at heq
      by_cases hphase : m.phase key.index = .marked
      · obtain ⟨word, hword, -⟩ := e.word.exists_cleared
        have hrelease : (m.setEntry .driver key.index q e).release key.index =
            some { m.setEntry .driver key.index q { e with word } with
              driverAt := none, phase := Function.update m.phase key.index .free } := by
          simp [Shared.release, Shared.setEntry, Shared.clear, hphase, hword]
        rw [hrelease] at heq
        cases heq
        exact .driverClears hmove hphase hword
      · have hrelease : (m.setEntry .driver key.index q e).release key.index =
            some { m.setEntry .driver key.index q e with driverAt := none } := by
          simp [Shared.release, Shared.setEntry, hphase]
        rw [hrelease] at heq
        cases heq
        exact .driverDone hmove hphase
    · rename_i hidle
      rw [hset] at heq
      cases heq
      exact .driver hmove hidle
  · cases h

theorem move_of_threadStep (h : threadStep interest k m p a = some (m', p')) :
    Move interest m (.io (.thread k)) p a m' p' := by
  unfold threadStep at h
  split at h
  · split at h
    · rename_i hkey
      obtain ⟨r, hr, heq⟩ := Option.map_eq_some_iff.mp h
      obtain ⟨e, hmove, hset⟩ := onEntry_eq_some hr
      split at heq
      · rw [hset] at heq
        cases heq
        exact .call hkey ‹_› hmove
      · cases heq
        exact .callFails hkey ‹_›
    · cases h
  · obtain ⟨r, hr, heq⟩ := Option.map_eq_some_iff.mp h
    obtain ⟨e, hmove, hset⟩ := onEntry_eq_some hr
    rw [hset] at heq
    split at heq
    · rename_i hidle
      rw [hidle] at hmove
      cases heq
      exact .threadDone hmove
    · cases heq
      exact .thread hmove ‹_›
  · cases h

theorem move_of_futureStep (h : futureStep interest k m p a = some (m', p')) :
    Move interest m (.io (.future k)) p a m' p' := by
  unfold futureStep at h
  split at h
  · split at h <;> cases h
    exact .readiness ‹_›
  · obtain ⟨r, hr, heq⟩ := Option.map_eq_some_iff.mp h
    obtain ⟨e, hmove, hset⟩ := onEntry_eq_some hr
    split at heq
    · rw [hset] at heq
      cases heq
      exact .future hmove fun hdropped ↦ by cases hmove.eq_drop hdropped
    · cases heq
      exact .pollFails hmove ‹_›
  · obtain ⟨r, hr, heq⟩ := Option.map_eq_some_iff.mp h
    obtain ⟨e, hmove, hset⟩ := onEntry_eq_some hr
    rw [hset] at heq
    cases heq
    exact .future hmove fun hdropped ↦ by cases hmove.eq_drop hdropped
  · obtain ⟨r, hr, heq⟩ := Option.map_eq_some_iff.mp h
    obtain ⟨e, hmove, hset⟩ := onEntry_eq_some hr
    split at heq
    · rename_i hdropped
      rw [hdropped] at hmove
      rw [hset] at heq
      cases heq
      exact .futureDrop hmove
    · rw [hset] at heq
      cases heq
      exact .future hmove ‹_›
  · split at h <;> cases h
    exact .leak ‹_›
  · cases h

theorem move_of_step {i : Agent} (h : step interest i m p a = some (m', p')) :
    Move interest m i p a m' p' := by
  cases i with
  | source k => exact move_of_sourceStep h
  | io i =>
    cases i with
    | driver => exact move_of_driverStep h
    | thread k => exact move_of_threadStep h
    | future k => exact move_of_futureStep h

end ArcDischarge.Slab
