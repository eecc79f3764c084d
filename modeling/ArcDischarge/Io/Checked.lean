import ArcDischarge.Io.Bits

/-!
# Packing without overflow

The functions of `src/bits.rs` once more, with the checks of a debug build: `<<` and `>>` panic
where the amount is not below the width of the word, `-` panics below zero, and `none` stands for
the panic. The plain functions of `Io/Bits.lean` leave the checks out; on a field that spans the
bits it should, both agree, so a checked `pack` panics by its `assert!` only.

Widths and shifts are `u32`s in the source. They are natural numbers here, which none of the
computations lets grow beyond the pointer width.
-/

namespace ArcDischarge.Io

variable {W : ℕ}

namespace Checked

def shl (x : BitVec W) (n : ℕ) : Option (BitVec W) := if n < W then some (x <<< n) else none

def shr (x : BitVec W) (n : ℕ) : Option (BitVec W) := if n < W then some (x >>> n) else none

def sub (x y : BitVec W) : Option (BitVec W) := if y ≤ x then some (x - y) else none

/-- The subtraction of `u32`s. -/
def subU32 (m n : ℕ) : Option ℕ := if n ≤ m then some (m - n) else none

theorem shl_eq {x : BitVec W} {n : ℕ} (h : n < W) : shl x n = some (x <<< n) := if_pos h

theorem shr_eq {x : BitVec W} {n : ℕ} (h : n < W) : shr x n = some (x >>> n) := if_pos h

theorem sub_eq {x y : BitVec W} (h : y ≤ x) : sub x y = some (x - y) := if_pos h

theorem subU32_eq {m n : ℕ} (h : n ≤ m) : subU32 m n = some (m - n) := if_pos h

end Checked

open Checked

/-- `mask_for`. Where `wrapping_shl` would wrap, this is an overflow as well. -/
def maskFor? (W n : ℕ) : Option (BitVec W) := do
  let amount ← subU32 n 1
  let shift ← shl 1#W amount
  let below ← sub shift 1#W
  return shift ||| below

namespace Pack

def leastSignificant? (width : ℕ) : Option (Pack W) := do
  let mask ← maskFor? W width
  return ⟨mask, 0⟩

def then? (p : Pack W) (width : ℕ) : Option (Pack W) := do
  let shift ← subU32 W (leadingZeros p.mask)
  let mask ← maskFor? W width
  let mask ← shl mask shift
  return ⟨mask, shift⟩

def width? (p : Pack W) : Option ℕ := do
  let value ← shr p.mask p.shift
  subU32 W (leadingZeros value)

def maxValue? (p : Pack W) : Option (BitVec W) := do
  let width ← p.width?
  let top ← shl 1#W width
  sub top 1#W

/-- `pack`, where `none` is an overflow or the `assert!`. -/
def pack? (p : Pack W) (value base : BitVec W) : Option (BitVec W) := do
  let max ← p.maxValue?
  if value ≤ max then
    let field ← shl value p.shift
    return (base &&& ~~~p.mask) ||| field
  else none

def packLossy? (p : Pack W) (value base : BitVec W) : Option (BitVec W) := do
  let max ← p.maxValue?
  p.pack? (value &&& max) base

def unpack? (p : Pack W) (src : BitVec W) : Option (BitVec W) := shr (src &&& p.mask) p.shift

end Pack

/-! ## The checks pass -/

theorem leadingZeros_le (x : BitVec W) : leadingZeros x ≤ W := Nat.sub_le _ _

theorem maskFor?_eq {n : ℕ} (hn : 0 < n) (hW : n ≤ W) : maskFor? W n = some (maskFor W n) := by
  have hlt : n - 1 < W := by omega
  rw [maskFor?, subU32_eq hn, Option.bind_eq_bind, Option.bind_some, shl_eq hlt,
    Option.bind_eq_bind, Option.bind_some, sub_eq (one_le_shiftLeft hlt), maskFor,
    Nat.mod_eq_of_lt hlt]
  rfl

namespace Pack

variable {p : Pack W} {lo w n : ℕ}

theorem leastSignificant?_eq (hn : 0 < n) (hW : n ≤ W) :
    (leastSignificant? n : Option (Pack W)) = some (leastSignificant n) := by
  rw [leastSignificant?, maskFor?_eq hn hW]
  rfl

theorem Spans.then?_eq (h : p.Spans lo w) (hn : 0 < n) (hW : lo + w + n ≤ W) :
    p.then? n = some (p.then' n) := by
  have hshift : W - leadingZeros p.mask < W := (h.then' hn hW).shift_lt
  rw [then?, subU32_eq (leadingZeros_le _), maskFor?_eq hn (by omega), Option.bind_eq_bind,
    Option.bind_some, Option.bind_eq_bind, Option.bind_some, shl_eq hshift]
  rfl

theorem Spans.width?_eq (h : p.Spans lo w) : p.width? = some w := by
  rw [width?, shr_eq h.shift_lt, Option.bind_eq_bind, Option.bind_some,
    subU32_eq (leadingZeros_le _)]
  exact congrArg some h.width_eq

theorem Spans.maxValue?_eq (h : p.Spans lo w) (hw : w < W) : p.maxValue? = some p.maxValue := by
  rw [maxValue?, h.width?_eq, Option.bind_eq_bind, Option.bind_some, shl_eq hw,
    Option.bind_eq_bind, Option.bind_some, sub_eq (one_le_shiftLeft hw), maxValue, h.width_eq]

theorem Spans.pack?_eq (h : p.Spans lo w) (hw : w < W) (value base : BitVec W) :
    p.pack? value base = p.pack value base := by
  rw [pack?, h.maxValue?_eq hw, shl_eq h.shift_lt]
  rfl

theorem Spans.packLossy?_eq (h : p.Spans lo w) (hw : w < W) (value base : BitVec W) :
    p.packLossy? value base = p.packLossy value base := by
  rw [packLossy?, h.maxValue?_eq hw]
  exact h.pack?_eq hw _ _

theorem Spans.unpack?_eq (h : p.Spans lo w) (src : BitVec W) :
    p.unpack? src = some (p.unpack src) :=
  shr_eq h.shift_lt

end Pack

end ArcDischarge.Io
