import Mathlib.Data.List.Infix
import Mathlib.Data.List.Nodup

/-!
# Adjacent elements of a list

`Adjacent l a b` says that `b` directly follows `a` somewhere in `l`. This is the vocabulary for
linked chains held in memory: the list is the intended order of the nodes, and an assertion about
each adjacent pair says whether the link from one to the next has been written.
-/

namespace ArcDischarge

variable {α : Type*} {l : List α} {a b c x : α}

/-- `b` directly follows `a` somewhere in `l`. -/
def Adjacent (l : List α) (a b : α) : Prop := [a, b] <:+: l

namespace Adjacent

theorem mem_left (h : Adjacent l a b) : a ∈ l := h.subset List.mem_cons_self

@[simp] theorem not_nil : ¬Adjacent ([] : List α) a b := by simp [Adjacent]

theorem cons_iff : Adjacent (x :: l) a b ↔ (x = a ∧ l.head? = some b) ∨ Adjacent l a b := by
  rw [Adjacent, List.infix_cons_iff, List.cons_prefix_cons]
  refine or_congr (and_congr eq_comm ?_) Iff.rfl
  cases l <;> simp [eq_comm]

@[simp] theorem not_singleton : ¬Adjacent [x] a b := by simp [cons_iff]

theorem cons_cons : Adjacent (a :: b :: l) a b := cons_iff.mpr (Or.inl ⟨rfl, rfl⟩)

theorem concat_iff : Adjacent (l ++ [x]) a b ↔ Adjacent l a b ∨ (l.getLast? = some a ∧ x = b) := by
  induction l with
  | nil => simp
  | cons y l ih =>
    rw [List.cons_append, cons_iff, ih, cons_iff]
    cases l with
    | nil => simp [eq_comm]
    | cons z l => simp [or_assoc]

/-- In a list without repetition an element has at most one successor. -/
theorem right_unique (hl : l.Nodup) (hb : Adjacent l a b) (hc : Adjacent l a c) : b = c := by
  induction l with
  | nil => simp at hb
  | cons y l ih =>
    rw [List.nodup_cons] at hl
    rw [cons_iff] at hb hc
    rcases hb with ⟨rfl, hb⟩ | hb <;> rcases hc with ⟨hy, hc⟩ | hc
    · exact Option.some.inj (hb.symm.trans hc)
    · exact absurd hc.mem_left hl.1
    · exact absurd (hy ▸ hb.mem_left) hl.1
    · exact ih hl.2 hb hc

/-- The last element of a list without repetition has no successor. -/
theorem getLast?_ne (hl : l.Nodup) (h : Adjacent l a b) : l.getLast? ≠ some a := by
  induction l with
  | nil => simp at h
  | cons y l ih =>
    rw [List.nodup_cons] at hl
    rw [cons_iff] at h
    have hne : l ≠ [] := by
      rintro rfl
      simp at h
    rw [List.getLast?_cons, List.getLast?_eq_some_getLast hne, Option.getD_some, ne_eq,
      Option.some.injEq]
    rcases h with ⟨rfl, -⟩ | h
    · exact fun hlast ↦ hl.1 (hlast ▸ List.getLast_mem hne)
    · intro hlast
      exact ih hl.2 h (by rw [List.getLast?_eq_some_getLast hne, hlast])

end Adjacent

end ArcDischarge
