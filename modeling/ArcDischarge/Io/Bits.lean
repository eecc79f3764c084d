import Mathlib.Algebra.Ring.Nat
import Mathlib.Data.Nat.Size
import Mathlib.Tactic.ByContra
import Mathlib.Tactic.SplitIfs

/-!
# Packing fields into a word

`src/bits.rs`, for a word of any width `W`. A `Pack` is a mask with its shift; `Spans p lo w` says
that the mask is the `w` bits from `lo` on. Fields built by `least_significant` and `then` span
adjacent ranges, and packing a value into one of them changes that field and no other bit.

The `assert!` of `pack` is its `none`.
-/

namespace ArcDischarge.Io

/-- A field of a word of `W` bits. -/
structure Pack (W : ℕ) where
  mask : BitVec W
  shift : ℕ
  deriving DecidableEq, Repr

variable {W : ℕ}

/-- `usize::leading_zeros`. -/
def leadingZeros (x : BitVec W) : ℕ := W - x.toNat.size

/-- A word with the `n` right-most bits set; `wrapping_shl` takes its amount modulo the width. -/
def maskFor (W n : ℕ) : BitVec W :=
  let shift := 1#W <<< ((n - 1) % W)
  shift ||| (shift - 1#W)

namespace Pack

def leastSignificant (width : ℕ) : Pack W := ⟨maskFor W width, 0⟩

/-- The field of the `width` next bits. -/
def then' (p : Pack W) (width : ℕ) : Pack W :=
  let shift := W - leadingZeros p.mask
  ⟨maskFor W width <<< shift, shift⟩

def width (p : Pack W) : ℕ := W - leadingZeros (p.mask >>> p.shift)

def maxValue (p : Pack W) : BitVec W := (1#W <<< p.width) - 1#W

def pack (p : Pack W) (value base : BitVec W) : Option (BitVec W) :=
  if value ≤ p.maxValue then some ((base &&& ~~~p.mask) ||| (value <<< p.shift)) else none

def packLossy (p : Pack W) (value base : BitVec W) : Option (BitVec W) :=
  p.pack (value &&& p.maxValue) base

def unpack (p : Pack W) (src : BitVec W) : BitVec W := (src &&& p.mask) >>> p.shift

/-! ## The bits a field occupies -/

/-- The field is the `w` bits from `lo` on. -/
structure Spans (p : Pack W) (lo w : ℕ) : Prop where
  shift : p.shift = lo
  mask : ∀ i, p.mask.getLsbD i = (decide (lo ≤ i) && decide (i < lo + w))
  pos : 0 < w
  fits : lo + w ≤ W

end Pack

theorem toNat_one_shiftLeft {n : ℕ} (hn : n < W) : (1#W <<< n).toNat = 2 ^ n := by
  rw [← BitVec.twoPow_eq, BitVec.toNat_twoPow_of_lt hn]

theorem one_le_shiftLeft {n : ℕ} (hn : n < W) : 1#W ≤ 1#W <<< n := by
  rw [BitVec.le_def, toNat_one_shiftLeft hn, BitVec.toNat_one (by omega)]
  exact Nat.one_le_two_pow

theorem toNat_one_shiftLeft_sub {n : ℕ} (hn : n < W) : (1#W <<< n - 1#W).toNat = 2 ^ n - 1 := by
  rw [BitVec.toNat_sub_of_le (one_le_shiftLeft hn), toNat_one_shiftLeft hn,
    BitVec.toNat_one (by omega)]

theorem getLsbD_maskFor {n : ℕ} (hn : 0 < n) (hW : n ≤ W) (i : ℕ) :
    (maskFor W n).getLsbD i = decide (i < n) := by
  have hlt : n - 1 < W := by omega
  rw [maskFor, Nat.mod_eq_of_lt hlt, BitVec.getLsbD_or]
  simp only [BitVec.getLsbD, toNat_one_shiftLeft hlt, toNat_one_shiftLeft_sub hlt,
    Nat.testBit_two_pow, Nat.testBit_two_pow_sub_one]
  rw [← Bool.decide_or]
  exact decide_eq_decide.mpr (by omega)

theorem leadingZeros_eq {x : BitVec W} {n : ℕ} (hn : 0 < n) (htop : x.getLsbD (n - 1) = true)
    (habove : ∀ i, n ≤ i → x.getLsbD i = false) : W - leadingZeros x = n := by
  have hsize : x.toNat.size = n := by
    refine Nat.le_antisymm (Nat.size_le.mpr (Nat.lt_pow_two_of_testBit _ habove)) ?_
    have := Nat.lt_size.mpr (Nat.ge_two_pow_of_testBit htop)
    omega
  have hW : n ≤ W := by
    by_contra h
    rw [BitVec.getLsbD_of_ge _ _ (by omega)] at htop
    cases htop
  rw [leadingZeros, hsize]
  omega

namespace Pack

variable {p q : Pack W} {lo w lo' w' n : ℕ} {value base src out : BitVec W}

theorem spans_leastSignificant (hn : 0 < n) (hW : n ≤ W) :
    (leastSignificant n : Pack W).Spans 0 n where
  shift := rfl
  mask i := by simp [leastSignificant, getLsbD_maskFor hn hW]
  pos := hn
  fits := by omega

theorem Spans.then' (h : p.Spans lo w) (hn : 0 < n) (hW : lo + w + n ≤ W) :
    (p.then' n).Spans (lo + w) n := by
  have hpos := h.pos
  have hshift : W - leadingZeros p.mask = lo + w := by
    refine leadingZeros_eq (by omega) ?_ fun i hi ↦ ?_
    · rw [h.mask]
      simp
      omega
    · rw [h.mask]
      simp
      omega
  refine ⟨hshift, fun i ↦ ?_, hn, hW⟩
  simp only [Pack.then', hshift, BitVec.getLsbD_shiftLeft, getLsbD_maskFor hn (by omega : n ≤ W)]
  rw [Bool.eq_iff_iff]
  simp
  omega

theorem Spans.width_eq (h : p.Spans lo w) : p.width = w := by
  have hpos := h.pos
  refine leadingZeros_eq hpos ?_ fun i hi ↦ ?_
  · rw [BitVec.getLsbD_ushiftRight, h.shift, h.mask]
    simp
    omega
  · rw [BitVec.getLsbD_ushiftRight, h.shift, h.mask]
    simp
    omega

theorem Spans.shift_lt (h : p.Spans lo w) : p.shift < W := by
  have hpos := h.pos
  have hfits := h.fits
  rw [h.shift]
  omega

theorem Spans.toNat_maxValue (h : p.Spans lo w) (hw : w < W) :
    p.maxValue.toNat = 2 ^ w - 1 := by
  rw [maxValue, h.width_eq, toNat_one_shiftLeft_sub hw]

/-- `pack` accepts the values that fit, and only these. -/
theorem Spans.pack_eq_some (h : p.Spans lo w) (hw : w < W) :
    p.pack value base = some out ↔
      value.toNat < 2 ^ w ∧ out = (base &&& ~~~p.mask) ||| (value <<< lo) := by
  have := Nat.two_pow_pos w
  have hle : value ≤ p.maxValue ↔ value.toNat < 2 ^ w := by
    rw [BitVec.le_def, h.toNat_maxValue hw]
    omega
  unfold pack
  rw [h.shift]
  split_ifs with hv
  · simp [hle.mp hv, eq_comm]
  · simp [mt hle.mpr hv]

/-- The bits of a packed word: the field's own are the value's, the others are the base's. -/
theorem Spans.getLsbD_pack (h : p.Spans lo w) (hw : w < W) (hp : p.pack value base = some out)
    (i : ℕ) : out.getLsbD i =
      if lo ≤ i ∧ i < lo + w then value.getLsbD (i - lo) else base.getLsbD i := by
  obtain ⟨hv, rfl⟩ := (h.pack_eq_some hw).mp hp
  have hfits := h.fits
  have hhigh : ∀ j, w ≤ j → value.getLsbD j = false := fun j hj ↦
    Nat.testBit_lt_two_pow (Nat.lt_of_lt_of_le hv (Nat.pow_le_pow_right (by omega) hj))
  simp only [BitVec.getLsbD_or, BitVec.getLsbD_and, BitVec.getLsbD_not, BitVec.getLsbD_shiftLeft,
    h.mask]
  by_cases hi : i < W
  · by_cases hlo : lo ≤ i
    · by_cases hup : i < lo + w
      · simp [hi, hlo, hup, Nat.not_lt.mpr hlo]
      · simp [hi, hlo, hup, Nat.not_lt.mpr hlo, hhigh (i - lo) (by omega)]
    · simp [hi, hlo, Nat.lt_of_not_le hlo]
  · rw [BitVec.getLsbD_of_ge base _ (by omega)]
    simp [hi]
    omega

theorem Spans.getLsbD_unpack (h : p.Spans lo w) (i : ℕ) :
    (p.unpack src).getLsbD i = (decide (i < w) && src.getLsbD (lo + i)) := by
  rw [unpack, BitVec.getLsbD_ushiftRight, BitVec.getLsbD_and, h.shift, h.mask]
  by_cases hi : i < w <;> simp [hi]

theorem Spans.toNat_unpack_lt (h : p.Spans lo w) (src : BitVec W) :
    (p.unpack src).toNat < 2 ^ w := by
  refine Nat.lt_pow_two_of_testBit _ fun i hi ↦ ?_
  change (p.unpack src).getLsbD i = false
  rw [h.getLsbD_unpack]
  simp [Nat.not_lt.mpr hi]

theorem Spans.unpack_pack (h : p.Spans lo w) (hw : w < W) (hp : p.pack value base = some out) :
    p.unpack out = value := by
  have hv := ((h.pack_eq_some hw).mp hp).1
  refine BitVec.eq_of_getLsbD_eq fun i _ ↦ ?_
  rw [h.getLsbD_unpack, h.getLsbD_pack hw hp]
  by_cases hi : i < w
  · simp [hi]
  · rw [show value.getLsbD i = false from
      Nat.testBit_lt_two_pow (Nat.lt_of_lt_of_le hv (Nat.pow_le_pow_right (by omega) (by omega)))]
    simp [hi]

/-- Packing one field leaves every disjoint field as it is. -/
theorem Spans.unpack_pack_of_disjoint (h : p.Spans lo w) (hw : w < W) (hq : q.Spans lo' w')
    (hdisj : lo + w ≤ lo' ∨ lo' + w' ≤ lo) (hp : p.pack value base = some out) :
    q.unpack out = q.unpack base := by
  refine BitVec.eq_of_getLsbD_eq fun i _ ↦ ?_
  rw [hq.getLsbD_unpack, hq.getLsbD_unpack, h.getLsbD_pack hw hp]
  by_cases hi : i < w'
  · rw [if_neg (by omega)]
  · simp [hi]

end Pack

end ArcDischarge.Io
