import ArcDischarge.Io.Checked

/-!
# Chains of fields

The layouts of the source are chains: `least_significant(w₀).then(w₁)…then(wₖ)`. A `then` finds its
place from the leading zeros of the mask before it, so that field `i` is where it should be has to
go through all fields below it; `Spans.thens` is that induction. The laws of a chain then follow
from the bits: packing a field writes the bits of its range and no others.

`Lawful` says all of it of the checked functions, for every layout that fits.
-/

namespace ArcDischarge.Io

variable {W : ℕ}

namespace Pack

/-- The field `p`, and the fields that `then` puts above it. -/
def thens (p : Pack W) : List ℕ → List (Pack W)
  | [] => [p]
  | w :: ws => p :: (p.then' w).thens ws

def thens? (p : Pack W) : List ℕ → Option (List (Pack W))
  | [] => some [p]
  | w :: ws => do
    let q ← p.then? w
    let qs ← q.thens? ws
    return p :: qs

/-- Pack what the fields of `src` hold into `base`, field by field. -/
def repack? (src base : BitVec W) (fields : List (Pack W)) : Option (BitVec W) :=
  fields.foldlM (fun out p ↦ do p.pack? (← p.unpack? src) out) base

end Pack

/-- The widths of a chain that fits into a word of `W` bits. -/
structure Layout (W : ℕ) where
  first : ℕ
  rest : List ℕ
  bounds : ∀ w ∈ first :: rest, 1 ≤ w ∧ w < W
  sum_le : (first :: rest).sum ≤ W

namespace Layout

def widths (l : Layout W) : List ℕ := l.first :: l.rest

/-- The bits below field `i`. -/
def offset (l : Layout W) (i : ℕ) : ℕ := (l.widths.take i).sum

def fields (l : Layout W) : List (Pack W) := (Pack.leastSignificant l.first).thens l.rest

/-- The fields, built with all checks. -/
def fields? (l : Layout W) : Option (List (Pack W)) := do
  let p ← Pack.leastSignificant? l.first
  p.thens? l.rest

/-- Every bit of the word that is set is in a field. -/
def Supports (l : Layout W) (src : BitVec W) : Prop :=
  ∀ b, src.getLsbD b = true → ∃ p ∈ l.fields, p.mask.getLsbD b = true

end Layout

/-! ## The place of a field -/

namespace Pack

variable {p q : Pack W} {lo w i : ℕ} {ws : List ℕ} {base : BitVec W}

theorem length_thens (p : Pack W) (ws : List ℕ) : (p.thens ws).length = ws.length + 1 := by
  induction ws generalizing p with
  | nil => rfl
  | cons w ws ih => exact congrArg (· + 1) (ih (p.then' w))

/-- Field `i` of a chain is the next `wᵢ` bits above the fields before it. -/
theorem Spans.thens (h : p.Spans lo w) (hpos : ∀ w' ∈ ws, 1 ≤ w') (hsum : lo + w + ws.sum ≤ W)
    (hi : (p.thens ws)[i]? = some q) :
    ∃ w', (w :: ws)[i]? = some w' ∧ q.Spans (lo + ((w :: ws).take i).sum) w' := by
  induction ws generalizing p lo w i with
  | nil =>
    rw [Pack.thens, List.getElem?_singleton] at hi
    split_ifs at hi with hzero
    cases hi
    subst hzero
    exact ⟨w, rfl, h⟩
  | cons w' ws ih =>
    rw [List.sum_cons] at hsum
    cases i with
    | zero =>
      cases hi
      exact ⟨w, rfl, h⟩
    | succ i =>
      have hnext : (p.then' w').Spans (lo + w) w' :=
        h.then' (hpos w' List.mem_cons_self) (by omega)
      obtain ⟨w'', hw, hq⟩ :=
        ih hnext (fun x hx ↦ hpos x (List.mem_cons_of_mem _ hx)) (by omega) hi
      refine ⟨w'', hw, ?_⟩
      rwa [List.take_succ_cons, List.sum_cons, ← Nat.add_assoc]

/-- No `then` of the chain overflows. -/
theorem Spans.thens?_eq (h : p.Spans lo w) (hpos : ∀ w' ∈ ws, 1 ≤ w')
    (hsum : lo + w + ws.sum ≤ W) : p.thens? ws = some (p.thens ws) := by
  induction ws generalizing p lo w with
  | nil => rfl
  | cons w' ws ih =>
    rw [List.sum_cons] at hsum
    have hw' := hpos w' List.mem_cons_self
    have hnext : (p.then' w').Spans (lo + w) w' := h.then' hw' (by omega)
    rw [thens?, h.then?_eq hw' (by omega), Option.bind_eq_bind, Option.bind_some,
      ih hnext (fun x hx ↦ hpos x (List.mem_cons_of_mem _ hx)) (by omega)]
    rfl

/-! ## Reading and writing fields -/

theorem Spans.pack_eq_none (h : p.Spans lo w) (hw : w < W) {value : BitVec W} :
    p.pack value base = none ↔ 2 ^ w ≤ value.toNat := by
  rw [Option.eq_none_iff_forall_ne_some]
  constructor
  · intro hnone
    by_contra hv
    exact hnone _ ((h.pack_eq_some hw).mpr ⟨Nat.lt_of_not_le hv, rfl⟩)
  · intro hv out hout
    have := ((h.pack_eq_some hw).mp hout).1
    omega

theorem Spans.maxValue_eq_ofNat (h : p.Spans lo w) (hw : w < W) :
    p.maxValue = BitVec.ofNat W (2 ^ w - 1) := by
  refine BitVec.eq_of_toNat_eq ?_
  have hpow : 2 ^ w < 2 ^ W := Nat.pow_lt_pow_right (by omega) hw
  have hpos := Nat.two_pow_pos w
  rw [h.toNat_maxValue hw, BitVec.toNat_ofNat, Nat.mod_eq_of_lt (by omega)]

theorem Spans.toNat_unpack (h : p.Spans lo w) (src : BitVec W) :
    (p.unpack src).toNat = src.toNat / 2 ^ lo % 2 ^ w := by
  refine Nat.eq_of_testBit_eq fun i ↦ ?_
  rw [Nat.testBit_mod_two_pow, Nat.testBit_div_two_pow, Nat.add_comm i lo]
  exact h.getLsbD_unpack i

/-- The mask of `pack_lossy` is a remainder. -/
theorem Spans.and_maxValue (h : p.Spans lo w) (hw : w < W) (value : BitVec W) :
    value &&& p.maxValue = BitVec.ofNat W (value.toNat % 2 ^ w) := by
  refine BitVec.eq_of_toNat_eq ?_
  have hle : value.toNat % 2 ^ w ≤ value.toNat := Nat.mod_le _ _
  have hlt := value.isLt
  rw [BitVec.toNat_and, h.toNat_maxValue hw, Nat.and_two_pow_sub_one_eq_mod, BitVec.toNat_ofNat,
    Nat.mod_eq_of_lt (by omega : value.toNat % 2 ^ w < 2 ^ W)]

theorem Spans.mask_eq_true (h : p.Spans lo w) : p.mask.getLsbD i = true ↔ lo ≤ i ∧ i < lo + w := by
  rw [h.mask, Bool.and_eq_true, decide_eq_true_iff, decide_eq_true_iff]

/-- Packing a field with what it holds in `src` copies the bits of its mask. -/
theorem Spans.exists_pack_unpack (h : p.Spans lo w) (hw : w < W) (src base : BitVec W) :
    ∃ out, p.pack (p.unpack src) base = some out ∧
      ∀ i, out.getLsbD i = if p.mask.getLsbD i then src.getLsbD i else base.getLsbD i := by
  obtain ⟨out, hout⟩ : ∃ out, p.pack (p.unpack src) base = some out :=
    ⟨_, (h.pack_eq_some hw).mpr ⟨h.toNat_unpack_lt src, rfl⟩⟩
  refine ⟨out, hout, fun i ↦ ?_⟩
  rw [h.getLsbD_pack hw hout, h.getLsbD_unpack]
  by_cases hi : lo ≤ i ∧ i < lo + w
  · have hlow : i - lo < w := by omega
    rw [if_pos hi, if_pos (h.mask_eq_true.mpr hi), decide_eq_true hlow, Bool.true_and,
      Nat.add_sub_cancel' hi.1]
  · rw [if_neg hi, if_neg (mt h.mask_eq_true.mp hi)]

/-- Repacking copies the bits that are in any of the fields; these may come in any order. -/
theorem exists_repack? {fields : List (Pack W)}
    (h : ∀ p ∈ fields, ∃ lo w, p.Spans lo w ∧ w < W) (src base : BitVec W) :
    ∃ out, repack? src base fields = some out ∧
      ∀ i, out.getLsbD i =
        if fields.any (fun p ↦ p.mask.getLsbD i) then src.getLsbD i else base.getLsbD i := by
  induction fields generalizing base with
  | nil => exact ⟨base, rfl, fun _ ↦ rfl⟩
  | cons p fields ih =>
    obtain ⟨lo, w, hp, hw⟩ := h p List.mem_cons_self
    obtain ⟨next, hnext, hbits⟩ := hp.exists_pack_unpack hw src base
    obtain ⟨out, hout, hrest⟩ := ih (fun q hq ↦ h q (List.mem_cons_of_mem _ hq)) next
    refine ⟨out, ?_, fun i ↦ ?_⟩
    · rw [repack?, List.foldlM_cons, hp.unpack?_eq, Option.bind_eq_bind, Option.bind_some,
        hp.pack?_eq hw, hnext]
      exact hout
    · rw [hrest, hbits, List.any_cons]
      cases p.mask.getLsbD i <;> simp

end Pack

/-! ## The laws of a chain -/

/-- What the checked functions do with field `i` of a chain, if it is the `w` bits from `lo` on. -/
structure FieldLaws (fields : List (Pack W)) (i : ℕ) (p : Pack W) (lo w : ℕ) : Prop where
  spans : p.Spans lo w
  width : p.width? = some w
  maxValue : p.maxValue? = some (BitVec.ofNat W (2 ^ w - 1))
  reads : ∀ src, p.unpack? src = some (BitVec.ofNat W (src.toNat / 2 ^ lo % 2 ^ w))
  /-- The `assert!` is the only panic. -/
  panics : ∀ value base, p.pack? value base = none ↔ 2 ^ w ≤ value.toNat
  own : ∀ value base out, p.pack? value base = some out → p.unpack? out = some value
  others : ∀ value base out, p.pack? value base = some out →
    ∀ j q, j ≠ i → fields[j]? = some q → q.unpack? out = q.unpack? base
  outside : ∀ value base out, p.pack? value base = some out →
    ∀ b, ¬(lo ≤ b ∧ b < lo + w) → out.getLsbD b = base.getLsbD b
  lossy : ∀ value base,
    p.packLossy? value base = p.pack? (BitVec.ofNat W (value.toNat % 2 ^ w)) base

namespace Layout

/-- A chain is a product encoding: its fields are side by side, each is read and written on its own,
and a word of the chain is made of what its fields hold. -/
structure Lawful (l : Layout W) : Prop where
  built : l.fields? = some l.fields
  length : l.fields.length = l.widths.length
  field : ∀ i p, l.fields[i]? = some p →
    ∃ w, l.widths[i]? = some w ∧ FieldLaws l.fields i p (l.offset i) w
  restores : ∀ order, order.Perm l.fields → ∀ src base, l.Supports src → l.Supports base →
    Pack.repack? src base order = some src

variable {l : Layout W} {i j w : ℕ} {p : Pack W}

theorem spans_first (l : Layout W) : (Pack.leastSignificant l.first : Pack W).Spans 0 l.first := by
  obtain ⟨hpos, hlt⟩ := l.bounds l.first List.mem_cons_self
  exact Pack.spans_leastSignificant hpos (Nat.le_of_lt hlt)

theorem rest_pos (l : Layout W) : ∀ w ∈ l.rest, 1 ≤ w := fun w hw ↦
  (l.bounds w (List.mem_cons_of_mem _ hw)).1

theorem sum_rest_le (l : Layout W) : 0 + l.first + l.rest.sum ≤ W := by
  have := l.sum_le
  rw [List.sum_cons] at this
  omega

theorem exists_spans (hp : l.fields[i]? = some p) :
    ∃ w, l.widths[i]? = some w ∧ w < W ∧ p.Spans (l.offset i) w := by
  obtain ⟨w, hw, hspans⟩ := l.spans_first.thens l.rest_pos l.sum_rest_le hp
  rw [Nat.zero_add] at hspans
  exact ⟨w, hw, (l.bounds w (List.mem_of_getElem? hw)).2, hspans⟩

/-- The fields above a field begin where it ends, or later. -/
theorem offset_add_le (hi : l.widths[i]? = some w) (hlt : i < j) : l.offset i + w ≤ l.offset j := by
  calc l.offset i + w = (l.widths.take (i + 1)).sum := by
        rw [List.take_add_one, hi, List.sum_append]
        rfl
    _ ≤ l.offset j := by
        obtain ⟨above, habove⟩ := List.take_prefix_take_left (l := l.widths) hlt
        rw [offset, ← habove, List.sum_append]
        exact Nat.le_add_right _ _

theorem fieldLaws (hi : l.widths[i]? = some w) (hw : w < W)
    (h : p.Spans (l.offset i) w) : FieldLaws l.fields i p (l.offset i) w where
  spans := h
  width := h.width?_eq
  maxValue := (h.maxValue?_eq hw).trans (congrArg some (h.maxValue_eq_ofNat hw))
  reads src := by
    rw [h.unpack?_eq, ← h.toNat_unpack, BitVec.ofNat_toNat, BitVec.setWidth_eq]
  panics value base := by
    rw [h.pack?_eq hw]
    exact h.pack_eq_none hw
  own value base out hout := by
    rw [h.pack?_eq hw] at hout
    rw [h.unpack?_eq, h.unpack_pack hw hout]
  others value base out hout j q hne hq := by
    rw [h.pack?_eq hw] at hout
    obtain ⟨w', hj, -, hspans⟩ := exists_spans hq
    have hdisj : l.offset i + w ≤ l.offset j ∨ l.offset j + w' ≤ l.offset i := by
      rcases Nat.lt_or_gt_of_ne hne with hlt | hlt
      · exact Or.inr (offset_add_le hj hlt)
      · exact Or.inl (offset_add_le hi hlt)
    rw [hspans.unpack?_eq, hspans.unpack?_eq, h.unpack_pack_of_disjoint hw hspans hdisj hout]
  outside value base out hout b hb := by
    rw [h.pack?_eq hw] at hout
    rw [h.getLsbD_pack hw hout, if_neg hb]
  lossy value base := by
    rw [h.packLossy?_eq hw, h.pack?_eq hw, Pack.packLossy, h.and_maxValue hw]

theorem laws_of_getElem? (hp : l.fields[i]? = some p) (hi : l.widths[i]? = some w) :
    FieldLaws l.fields i p (l.offset i) w := by
  obtain ⟨w', hi', hw, hspans⟩ := exists_spans hp
  obtain rfl : w' = w := Option.some.inj (hi'.symm.trans hi)
  exact fieldLaws hi hw hspans

/-- **Every chain that fits is a product encoding**, for any pointer width. -/
theorem lawful (l : Layout W) : l.Lawful where
  built := by
    obtain ⟨hpos, hlt⟩ := l.bounds l.first List.mem_cons_self
    rw [fields?, Pack.leastSignificant?_eq hpos (Nat.le_of_lt hlt)]
    exact l.spans_first.thens?_eq l.rest_pos l.sum_rest_le
  length := Pack.length_thens _ _
  field i p hp := by
    obtain ⟨w, hi, -, -⟩ := exists_spans hp
    exact ⟨w, hi, laws_of_getElem? hp hi⟩
  restores order hperm src base hsrc hbase := by
    have hspans (p : Pack W) (hp : p ∈ order) : ∃ lo w, p.Spans lo w ∧ w < W := by
      obtain ⟨i, hi⟩ := List.mem_iff_getElem?.mp (hperm.mem_iff.mp hp)
      obtain ⟨w, -, hw, hspans⟩ := exists_spans hi
      exact ⟨_, w, hspans, hw⟩
    obtain ⟨out, hout, hbits⟩ := Pack.exists_repack? hspans src base
    rw [hout, Option.some.injEq]
    refine BitVec.eq_of_getLsbD_eq fun b _ ↦ ?_
    rw [hbits]
    split_ifs with hany
    · rfl
    -- outside the fields both words are zero
    have hzero (x : BitVec W) (hx : l.Supports x) : x.getLsbD b = false := by
      refine Bool.eq_false_iff.mpr fun hb ↦ hany ?_
      obtain ⟨p, hp, hmask⟩ := hx b hb
      exact List.any_eq_true.mpr ⟨p, hperm.mem_iff.mpr hp, hmask⟩
    rw [hzero base hbase, hzero src hsrc]

end Layout

end ArcDischarge.Io
