import ArcDischarge.Data.Adjacent
import ArcDischarge.SyncSlotMap.Model

/-!
# The chain in the slots

The nodes between `tail` and `head` form a chain, but the chain is broken wherever a producer has
swapped `head` and not yet written the link of its predecessor. `Linked m F l` describes the memory
while the pairs in `F` — new node, predecessor — are the link writes still to come: `l` lists the
nodes in order, and each link between neighbours either is written or is one of those.

The four kinds of memory step are then four lemmas: a reset of a node outside the chain changes
nothing, a head swap appends a node and adds a pending write, a link write removes its pending
write, and a store to `tail` drops the first node. They hold for the stub and for workers alike.
-/

namespace ArcDischarge.SyncSlotMap

/-- The memory holds the chain `l`, up to the link writes `F` still to come. -/
structure Linked (m : Mem) (F : ℕ → ℕ → Prop) (l : List ℕ) : Prop where
  nodup : l.Nodup
  head : l.head? = some m.tail
  last : l.getLast? = some m.head
  le_cap : ∀ a ∈ l, a ≤ m.cap
  /-- The last node has a null link. -/
  slot_head : m.slots m.head = m.len
  /-- The link to a node's successor is written, or about to be. -/
  written : ∀ a b, Adjacent l a b → m.slots a = b ∨ F b a
  /-- A link about to be written is null, and belongs to the chain. -/
  pending : ∀ i prev, F i prev → Adjacent l prev i ∧ m.slots prev = m.len

namespace Linked

variable {m : Mem} {F : ℕ → ℕ → Prop} {l : List ℕ} {i prev n : ℕ}

theorem tail_mem (h : Linked m F l) : m.tail ∈ l := List.mem_of_mem_head? h.head

theorem head_mem (h : Linked m F l) : m.head ∈ l := List.mem_of_getLast? h.last

theorem tail_lt_len (h : Linked m F l) : m.tail < m.len :=
  Nat.lt_succ_of_le (h.le_cap _ h.tail_mem)

theorem lt_len (h : Linked m F l) {a : ℕ} (ha : a ∈ l) : a < m.len :=
  Nat.lt_succ_of_le (h.le_cap _ ha)

theorem eq_tail_cons (h : Linked m F l) : ∃ r, l = m.tail :: r := by
  cases l with
  | nil => exact absurd h.head (by simp)
  | cons a r => exact ⟨r, by rw [Option.some.inj h.head]⟩

/-- A written link of the first node names the second. -/
theorem eq_cons_cons (h : Linked m F l) (hn : m.slots m.tail = n) (hcap : n ≤ m.cap) :
    ∃ r, l = m.tail :: n :: r := by
  obtain ⟨r, rfl⟩ := h.eq_tail_cons
  cases r with
  | nil =>
    have hlast : m.tail = m.head := by simpa using h.last
    have := h.slot_head
    rw [← hlast, hn, Mem.len] at this
    omega
  | cons b r =>
    rcases h.written _ _ Adjacent.cons_cons with hb | hb
    · exact ⟨r, by rw [← hb, hn]⟩
    · have := (h.pending _ _ hb).2
      rw [hn, Mem.len] at this
      omega

/-- A null link of the first node means that it is alone, or that its link is about to be written.
-/
theorem eq_singleton_or_pending (h : Linked m F l) (hn : m.cap < m.slots m.tail) :
    l = [m.tail] ∨ ∃ b, F b m.tail := by
  obtain ⟨r, rfl⟩ := h.eq_tail_cons
  cases r with
  | nil => exact Or.inl rfl
  | cons b r =>
    rcases h.written _ _ Adjacent.cons_cons with hb | hb
    · have := h.le_cap b (by simp)
      omega
    · exact Or.inr ⟨b, hb⟩

theorem eq_singleton_of_head_eq (h : Linked m F l) (hh : m.head = m.tail) : l = [m.tail] := by
  obtain ⟨r, rfl⟩ := h.eq_tail_cons
  cases r with
  | nil => rfl
  | cons b r =>
    exact absurd (hh ▸ h.last) (Adjacent.getLast?_ne h.nodup Adjacent.cons_cons)

/-! ## The memory steps -/

theorem congr {G : ℕ → ℕ → Prop} (h : Linked m F l) (hFG : ∀ i prev, F i prev ↔ G i prev) :
    Linked m G l where
  nodup := h.nodup
  head := h.head
  last := h.last
  le_cap := h.le_cap
  slot_head := h.slot_head
  written a b hab := (h.written a b hab).imp_right (hFG _ _).mp
  pending i prev hi := h.pending i prev ((hFG _ _).mpr hi)

theorem reset (h : Linked m F l) (hi : i ∉ l) :
    Linked { m with slots := Function.update m.slots i m.len } F l where
  nodup := h.nodup
  head := h.head
  last := h.last
  le_cap := h.le_cap
  slot_head := by
    have hne : m.head ≠ i := fun he ↦ hi (he ▸ h.head_mem)
    exact (Function.update_of_ne hne _ _).trans h.slot_head
  written a b hab := by
    have hne : a ≠ i := fun he ↦ hi (he ▸ hab.mem_left)
    simpa [Function.update_of_ne hne] using h.written a b hab
  pending j prev hj := by
    obtain ⟨hadj, hslot⟩ := h.pending j prev hj
    have hne : prev ≠ i := fun he ↦ hi (he ▸ hadj.mem_left)
    exact ⟨hadj, (Function.update_of_ne hne _ _).trans hslot⟩

theorem swap (h : Linked m F l) (hi : i ∉ l) (hcap : i ≤ m.cap) (hslot : m.slots i = m.len) :
    Linked { m with head := i } (fun j prev ↦ F j prev ∨ (j = i ∧ prev = m.head)) (l ++ [i]) where
  nodup := by
    rw [List.nodup_append]
    exact ⟨h.nodup, List.nodup_singleton i, fun a ha b hb hab ↦
      hi (by rw [← List.mem_singleton.mp hb, ← hab]; exact ha)⟩
  head := by
    obtain ⟨r, rfl⟩ := h.eq_tail_cons
    rfl
  last := by simp
  le_cap a ha := by
    rcases List.mem_append.mp ha with ha | ha
    · exact h.le_cap a ha
    · exact List.mem_singleton.mp ha ▸ hcap
  slot_head := hslot
  written a b hab := by
    rcases Adjacent.concat_iff.mp hab with hab | ⟨hlast, rfl⟩
    · exact (h.written a b hab).imp_right Or.inl
    · exact Or.inr (Or.inr ⟨rfl, Option.some.inj (hlast.symm.trans h.last)⟩)
  pending j prev hj := by
    rcases hj with hj | ⟨rfl, rfl⟩
    · exact ⟨Adjacent.concat_iff.mpr (Or.inl (h.pending j prev hj).1), (h.pending j prev hj).2⟩
    · exact ⟨Adjacent.concat_iff.mpr (Or.inr ⟨h.last, rfl⟩), h.slot_head⟩

theorem link (h : Linked m F l) (hF : F i prev) :
    Linked { m with slots := Function.update m.slots prev i }
      (fun j p ↦ F j p ∧ ¬(j = i ∧ p = prev)) l where
  nodup := h.nodup
  head := h.head
  last := h.last
  le_cap := h.le_cap
  slot_head := by
    have hadj := (h.pending i prev hF).1
    have hne : m.head ≠ prev := fun he ↦ Adjacent.getLast?_ne h.nodup hadj (he ▸ h.last)
    exact (Function.update_of_ne hne _ _).trans h.slot_head
  written a b hab := by
    by_cases ha : a = prev
    · subst ha
      left
      simpa using (Adjacent.right_unique h.nodup hab (h.pending i a hF).1).symm
    · refine (h.written a b hab).imp (Function.update_of_ne ha _ _).trans ?_
      exact fun hb ↦ ⟨hb, fun he ↦ ha he.2⟩
  pending j p hj := by
    obtain ⟨hadj, hslot⟩ := h.pending j p hj.1
    have hne : p ≠ prev := by
      rintro rfl
      exact hj.2 ⟨Adjacent.right_unique h.nodup hadj (h.pending i p hF).1, rfl⟩
    exact ⟨hadj, (Function.update_of_ne hne _ _).trans hslot⟩

theorem advance (h : Linked m F (m.tail :: n :: l)) (hn : m.slots m.tail = n) (hcap : n ≤ m.cap) :
    Linked { m with tail := n } F (n :: l) where
  nodup := (List.nodup_cons.mp h.nodup).2
  head := rfl
  last := by simpa [List.getLast?_cons] using h.last
  le_cap a ha := h.le_cap a (List.mem_cons_of_mem _ ha)
  slot_head := h.slot_head
  written a b hab := h.written a b (Adjacent.cons_iff.mpr (Or.inr hab))
  pending j p hj := by
    obtain ⟨hadj, hslot⟩ := h.pending j p hj
    rcases Adjacent.cons_iff.mp hadj with ⟨rfl, -⟩ | hadj
    · rw [hn, Mem.len] at hslot
      omega
    · exact ⟨hadj, hslot⟩

end Linked

end ArcDischarge.SyncSlotMap
