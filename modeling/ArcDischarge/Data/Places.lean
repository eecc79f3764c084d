import Mathlib.Data.List.Nodup
import Mathlib.Logic.Function.Basic

/-!
# Things that are in one place at a time

Things lie in places, each of which is a list: queues, and records of what was taken from them.
`OnePlace known place` says that each thing that is known lies in exactly one place, once. This
stays so when a new thing is put somewhere, and when a thing is moved from the front of one place to
the back of another.
-/

namespace ArcDischarge

variable {ρ α : Type*}

/-- Every known thing is in one place, and there only once. -/
structure OnePlace (known : α → Prop) (place : ρ → List α) : Prop where
  known_iff : ∀ x, known x ↔ ∃ P, x ∈ place P
  nodup : ∀ P, (place P).Nodup
  unique : ∀ x P Q, x ∈ place P → x ∈ place Q → P = Q

namespace OnePlace

theorem empty {known : α → Prop} {place : ρ → List α} (hknown : ∀ x, ¬known x)
    (hplace : ∀ P, place P = []) : OnePlace known place where
  known_iff x := by simp [hknown, hplace]
  nodup P := by simp [hplace]
  unique x P Q hP := by simp [hplace] at hP

variable [DecidableEq ρ] {known known' : α → Prop} {place : ρ → List α} {x : α} {P Q : ρ}
  {rest : List α}

/-- A new thing is put at the back of a place. -/
theorem insert (h : OnePlace known place) (hx : ¬known x)
    (hknown : ∀ y, known' y ↔ known y ∨ y = x) :
    OnePlace known' (Function.update place P (place P ++ [x])) := by
  have hmem (y : α) (Q : ρ) : y ∈ Function.update place P (place P ++ [x]) Q ↔
      y ∈ place Q ∨ (y = x ∧ Q = P) := by
    by_cases hQ : Q = P
    · subst hQ
      simp
    · simp [hQ]
  refine ⟨fun y ↦ ?_, fun Q ↦ ?_, fun y Q R hQ hR ↦ ?_⟩
  · rw [hknown, h.known_iff]
    simp only [hmem]
    constructor
    · rintro (⟨Q, hQ⟩ | rfl)
      · exact ⟨Q, .inl hQ⟩
      · exact ⟨P, .inr ⟨rfl, rfl⟩⟩
    · rintro ⟨Q, hQ | hQ⟩
      · exact .inl ⟨Q, hQ⟩
      · exact .inr hQ.1
  · by_cases hQ : Q = P
    · subst hQ
      rw [Function.update_self]
      exact List.nodup_append.mpr ⟨h.nodup Q, List.nodup_singleton x, fun y hy z hz ↦ by
        rw [List.mem_singleton.mp hz]
        rintro rfl
        exact hx ((h.known_iff y).mpr ⟨Q, hy⟩)⟩
    · rw [Function.update_of_ne hQ]
      exact h.nodup Q
  · rw [hmem] at hQ hR
    rcases hQ with hQ | ⟨rfl, rfl⟩
    · rcases hR with hR | ⟨rfl, rfl⟩
      · exact h.unique y Q R hQ hR
      · exact absurd ((h.known_iff y).mpr ⟨Q, hQ⟩) hx
    · rcases hR with hR | ⟨-, rfl⟩
      · exact absurd ((h.known_iff y).mpr ⟨R, hR⟩) hx
      · rfl

/-- A thing is taken from the front of a place, and is known no longer. -/
theorem remove (h : OnePlace known place) (hP : place P = x :: rest)
    (hknown : ∀ y, known' y ↔ known y ∧ y ≠ x) :
    OnePlace known' (Function.update place P rest) := by
  have hnodup := h.nodup P
  rw [hP, List.nodup_cons] at hnodup
  have hmem (y : α) (Q : ρ) : y ∈ Function.update place P rest Q ↔ y ∈ place Q ∧ y ≠ x := by
    by_cases hQ : Q = P
    · subst hQ
      rw [Function.update_self, hP, List.mem_cons]
      constructor
      · exact fun hy ↦ ⟨.inr hy, fun heq ↦ hnodup.1 (heq ▸ hy)⟩
      · exact fun hy ↦ hy.1.resolve_left hy.2
    · rw [Function.update_of_ne hQ]
      refine ⟨fun hy ↦ ⟨hy, ?_⟩, fun hy ↦ hy.1⟩
      rintro rfl
      exact hQ (h.unique y Q P hy (hP ▸ List.mem_cons_self))
  refine ⟨fun y ↦ ?_, fun Q ↦ ?_, fun y Q R hQ hR ↦ ?_⟩
  · rw [hknown, h.known_iff]
    simp only [hmem, exists_and_right]
  · by_cases hQ : Q = P
    · subst hQ
      rw [Function.update_self]
      exact hnodup.2
    · rw [Function.update_of_ne hQ]
      exact h.nodup Q
  · rw [hmem] at hQ hR
    exact h.unique y Q R hQ.1 hR.1

/-- A thing moves from the front of one place to the back of another. -/
theorem transfer (h : OnePlace known place) (hP : place P = x :: rest) (hne : Q ≠ P) :
    OnePlace known (Function.update (Function.update place P rest) Q (place Q ++ [x])) := by
  have hx : known x := (h.known_iff x).mpr ⟨P, hP ▸ List.mem_cons_self⟩
  have hremoved : OnePlace (fun y ↦ known y ∧ y ≠ x) (Function.update place P rest) :=
    h.remove hP fun _ ↦ Iff.rfl
  have hback (y : α) : known y ↔ (known y ∧ y ≠ x) ∨ y = x := by
    by_cases hy : y = x
    · simp [hy, hx]
    · simp [hy]
  have hinserted := hremoved.insert (P := Q) (fun hy ↦ hy.2 rfl) hback
  rwa [Function.update_of_ne hne] at hinserted

end OnePlace

end ArcDischarge
