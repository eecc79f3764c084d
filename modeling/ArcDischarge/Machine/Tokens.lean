import Mathlib.Algebra.BigOperators.Group.Finset.Piecewise
import Mathlib.Algebra.Order.BigOperators.Group.Finset
import Mathlib.Data.Sum.Basic

/-!
# Counting tokens over unboundedly many holders

The holders of a system — agents, queues — may be infinitely many, so what they hold has no sum a
priori. `AtMost f n` says that any finitely many of them hold at most `n` together. A step changes
what one holder has, and the bound with it.
-/

namespace ArcDischarge

variable {ι κ : Type*}

/-- Any finitely many of the holders have at most `n` together. -/
def AtMost (f : ι → ℕ) (n : ℕ) : Prop := ∀ s : Finset ι, ∑ i ∈ s, f i ≤ n

namespace AtMost

variable {f : ι → ℕ} {n n' v : ℕ}

theorem zero : AtMost (fun _ : ι ↦ 0) n := fun s ↦ by simp

theorem apply_le (h : AtMost f n) (i : ι) : f i ≤ n := by simpa using h {i}

/-- One holder gets `v` in place of what it had, and the bound moves accordingly. -/
theorem update [DecidableEq ι] {i : ι} (h : AtMost f n) (hv : n + v ≤ n' + f i) :
    AtMost (Function.update f i v) n' := by
  intro s
  by_cases hi : i ∈ s
  · have hsum := h s
    rw [← Finset.add_sum_erase s f hi] at hsum
    rw [Finset.sum_update_of_mem hi, Finset.sdiff_singleton_eq_erase]
    omega
  · -- the others are bounded together with the holder, which had `f i`
    have hsum := h (insert i s)
    rw [Finset.sum_insert hi] at hsum
    have hother : ∑ j ∈ s, Function.update f i v j = ∑ j ∈ s, f j :=
      Finset.sum_update_of_notMem hi f v
    omega

theorem update_right [DecidableEq ι] [DecidableEq κ] {i : κ} {g : κ → ℕ}
    (h : AtMost (Sum.elim f g) n) (hv : n + v ≤ n' + g i) :
    AtMost (Sum.elim f (Function.update g i v)) n' := by
  rw [← Sum.update_elim_inr]
  exact h.update hv

/-! ### Agents that carry tokens according to where they stand -/

section

variable [DecidableEq ι] {π : Type*} {w : π → ℕ} {pc : ι → π} {i : ι} {p : π}

theorem move (h : AtMost (fun j ↦ w (pc j)) n) (hn : n + w p ≤ n' + w (pc i)) :
    AtMost (fun j ↦ w (Function.update pc i p j)) n' := by
  rw [show (fun j ↦ w (Function.update pc i p j)) = Function.update (fun j ↦ w (pc j)) i (w p) from
    Function.comp_update w pc i p]
  exact h.update hn

/-- The same beside holders of another kind. -/
theorem move_left [DecidableEq κ] {g : κ → ℕ} (h : AtMost (Sum.elim (fun j ↦ w (pc j)) g) n)
    (hn : n + w p ≤ n' + w (pc i)) :
    AtMost (Sum.elim (fun j ↦ w (Function.update pc i p j)) g) n' := by
  rw [show (fun j ↦ w (Function.update pc i p j)) = Function.update (fun j ↦ w (pc j)) i (w p) from
    Function.comp_update w pc i p, ← Sum.update_elim_inl]
  exact h.update hn

end

end AtMost

end ArcDischarge
