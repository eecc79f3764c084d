import ArcDischarge.Io.Bits

/-!
# Readiness sets

`src/io/ready.rs`, with the parts of `mio::Interest` and `mio::event::Event` that it reads. A
`Ready` is a machine word of which only the four flags are used; its constructors in the source keep
to them, so the type carries that as a field. `b ∈ r` says that bit `b` of `r` is set, and the
operators are the set operations.
-/

namespace ArcDischarge.Io

/-- Readiness of an I/O resource. -/
@[ext] structure Ready where
  bits : BitVec 64
  defined : bits &&& 0b1111#64 = bits
  deriving DecidableEq

namespace Ready

instance : Membership ℕ Ready := ⟨fun r b ↦ r.bits.getLsbD b = true⟩

theorem mem_def {r : Ready} {b : ℕ} : b ∈ r ↔ r.bits.getLsbD b = true := Iff.rfl

instance (b : ℕ) (r : Ready) : Decidable (b ∈ r) := decidable_of_iff _ mem_def.symm

theorem getLsbD_allBits (i : ℕ) : (0b1111#64).getLsbD i = decide (i < 4) := by
  rw [BitVec.getLsbD_ofNat, show 0b1111 = 2 ^ 4 - 1 from rfl, Nat.testBit_two_pow_sub_one]
  by_cases hi : i < 4
  · simp [hi]
    omega
  · simp [hi]

theorem defined_iff {bits : BitVec 64} :
    bits &&& 0b1111#64 = bits ↔ ∀ i, bits.getLsbD i = true → i < 4 := by
  constructor
  · intro h i hi
    rw [← h, BitVec.getLsbD_and, getLsbD_allBits, Bool.and_eq_true, decide_eq_true_iff] at hi
    exact hi.2
  · intro h
    refine BitVec.eq_of_getLsbD_eq fun i _ ↦ ?_
    rw [BitVec.getLsbD_and, getLsbD_allBits]
    cases hi : bits.getLsbD i with
    | false => rfl
    | true => simp [h i hi]

theorem lt_of_mem {r : Ready} {b : ℕ} (h : b ∈ r) : b < 4 := defined_iff.mp r.defined b h

theorem ext_mem {r q : Ready} (h : ∀ b, b ∈ r ↔ b ∈ q) : r = q :=
  Ready.ext (BitVec.eq_of_getLsbD_eq fun i _ ↦ Bool.eq_iff_iff.mpr (h i))

/-! ## The constants and the operators -/

def EMPTY : Ready := ⟨0#64, rfl⟩

def READABLE : Ready := ⟨0b0001#64, rfl⟩

def WRITABLE : Ready := ⟨0b0010#64, rfl⟩

def READ_CLOSED : Ready := ⟨0b0100#64, rfl⟩

def WRITE_CLOSED : Ready := ⟨0b1000#64, rfl⟩

def ALL : Ready := ⟨0b1111#64, rfl⟩

instance : OrOp Ready where
  or r q := ⟨r.bits ||| q.bits, defined_iff.mpr fun i hi ↦ by
    rw [BitVec.getLsbD_or, Bool.or_eq_true] at hi
    exact hi.elim (fun h ↦ lt_of_mem h) fun h ↦ lt_of_mem h⟩

instance : AndOp Ready where
  and r q := ⟨r.bits &&& q.bits, defined_iff.mpr fun i hi ↦ by
    rw [BitVec.getLsbD_and, Bool.and_eq_true] at hi
    exact lt_of_mem (r := r) hi.1⟩

instance : Sub Ready where
  sub r q := ⟨r.bits &&& ~~~q.bits, defined_iff.mpr fun i hi ↦ by
    rw [BitVec.getLsbD_and, Bool.and_eq_true] at hi
    exact lt_of_mem (r := r) hi.1⟩

variable {r q : Ready} {b : ℕ}

@[simp] theorem not_mem_EMPTY : b ∈ EMPTY ↔ False := by simp [mem_def, EMPTY]

@[simp] theorem mem_ALL : b ∈ ALL ↔ b < 4 := by
  rw [mem_def, ALL, getLsbD_allBits, decide_eq_true_iff]

@[simp] theorem mem_or : b ∈ r ||| q ↔ b ∈ r ∨ b ∈ q := by
  change (r.bits ||| q.bits).getLsbD b = true ↔ _
  rw [BitVec.getLsbD_or, Bool.or_eq_true]
  rfl

@[simp] theorem mem_and : b ∈ r &&& q ↔ b ∈ r ∧ b ∈ q := by
  change (r.bits &&& q.bits).getLsbD b = true ↔ _
  rw [BitVec.getLsbD_and, Bool.and_eq_true]
  rfl

@[simp] theorem mem_sub : b ∈ r - q ↔ b ∈ r ∧ b ∉ q := by
  change (r.bits &&& ~~~q.bits).getLsbD b = true ↔ _
  rw [BitVec.getLsbD_and, BitVec.getLsbD_not, Bool.and_eq_true, Bool.and_eq_true,
    decide_eq_true_iff, Bool.not_eq_true', mem_def, mem_def, Bool.not_eq_true]
  constructor
  · exact fun h ↦ ⟨h.1, h.2.2⟩
  · intro h
    have := lt_of_mem (r := r) h.1
    exact ⟨h.1, by omega, h.2⟩

theorem mem_of_twoPow {k : ℕ} (hk : k < 64) (h : r.bits = BitVec.twoPow 64 k) :
    b ∈ r ↔ b = k := by
  rw [mem_def, h, BitVec.getLsbD_twoPow]
  simp [hk, eq_comm]

@[simp] theorem mem_READABLE : b ∈ READABLE ↔ b = 0 := mem_of_twoPow (by omega) rfl

@[simp] theorem mem_WRITABLE : b ∈ WRITABLE ↔ b = 1 := mem_of_twoPow (by omega) rfl

@[simp] theorem mem_READ_CLOSED : b ∈ READ_CLOSED ↔ b = 2 := mem_of_twoPow (by omega) rfl

@[simp] theorem mem_WRITE_CLOSED : b ∈ WRITE_CLOSED ↔ b = 3 :=
  mem_of_twoPow (by omega) rfl

/-! ## Conversions and queries -/

def isEmpty (r : Ready) : Bool := r == EMPTY

def contains (r q : Ready) : Bool := (r &&& q) == q

def isReadClosed (r : Ready) : Bool := r.contains READ_CLOSED

def isWriteClosed (r : Ready) : Bool := r.contains WRITE_CLOSED

def isReadable (r : Ready) : Bool := r.contains READABLE || r.isReadClosed

def isWritable (r : Ready) : Bool := r.contains WRITABLE || r.isWriteClosed

def fromUsize (val : BitVec 64) : Ready :=
  ⟨val &&& ALL.bits, defined_iff.mpr fun i hi ↦ by
    rw [BitVec.getLsbD_and, Bool.and_eq_true] at hi
    exact lt_of_mem (r := ALL) hi.2⟩

def asUsize (r : Ready) : BitVec 64 := r.bits

@[simp] theorem mem_fromUsize {val : BitVec 64} :
    b ∈ fromUsize val ↔ b < 4 ∧ val.getLsbD b = true := by
  rw [mem_def, fromUsize, BitVec.getLsbD_and, Bool.and_eq_true, and_comm]
  exact and_congr_left fun _ ↦ mem_ALL

theorem isEmpty_iff : r.isEmpty = true ↔ ∀ b, b ∉ r := by
  rw [isEmpty, beq_iff_eq]
  constructor
  · rintro rfl b
    simp
  · exact fun h ↦ ext_mem fun b ↦ by simp [h b]

end Ready

/-! ## Interests, events and directions -/

/-- `mio::Interest`: a non-zero byte, of which the first two bits are read here. -/
structure Interest where
  bits : BitVec 8
  ne_zero : bits ≠ 0#8
  deriving DecidableEq

namespace Interest

def READABLE : Interest := ⟨0b01#8, by decide⟩

def WRITABLE : Interest := ⟨0b10#8, by decide⟩

def isReadable (i : Interest) : Bool := i.bits &&& 0b01#8 != 0#8

def isWritable (i : Interest) : Bool := i.bits &&& 0b10#8 != 0#8

end Interest

/-- The four questions that `from_mio` asks of a `mio::event::Event`. -/
structure Event where
  isReadable : Bool
  isWritable : Bool
  isReadClosed : Bool
  isWriteClosed : Bool
  deriving DecidableEq

namespace Ready

def fromMio (event : Event) : Ready :=
  (if event.isReadable then READABLE else EMPTY) |||
    (if event.isWritable then WRITABLE else EMPTY) |||
    (if event.isReadClosed then READ_CLOSED else EMPTY) |||
    (if event.isWriteClosed then WRITE_CLOSED else EMPTY)

def fromInterest (interest : Interest) : Ready :=
  (if interest.isReadable then READABLE ||| READ_CLOSED else EMPTY) |||
    (if interest.isWritable then WRITABLE ||| WRITE_CLOSED else EMPTY)

def intersection (r : Ready) (interest : Interest) : Ready := r &&& fromInterest interest

def satisfies (r : Ready) (interest : Interest) : Bool :=
  r.asUsize &&& (fromInterest interest).asUsize != 0#64

end Ready

/-- `mask`: a combined interest matches neither constant. -/
def mask (interest : Interest) : Ready :=
  if interest = .READABLE then .READABLE ||| .READ_CLOSED
  else if interest = .WRITABLE then .WRITABLE ||| .WRITE_CLOSED
  else .EMPTY

inductive Direction where
  | read
  | write
  deriving DecidableEq, Repr

def Direction.mask : Direction → Ready
  | .read => .READABLE ||| .READ_CLOSED
  | .write => .WRITABLE ||| .WRITE_CLOSED

/-- The slot of a direction is woken by the readiness that its mask meets. -/
def Direction.wokenBy (ready : Ready) : Direction → Bool
  | .read => ready.isReadable
  | .write => ready.isWritable

/-- `r` has a flag of `q`. -/
def Ready.Meets (r q : Ready) : Prop := ∃ b, b ∈ r ∧ b ∈ q

theorem Ready.contains_iff {r flag : Ready} {k : ℕ} (h : ∀ i, i ∈ flag ↔ i = k) :
    r.contains flag = true ↔ k ∈ r := by
  rw [contains, beq_iff_eq]
  constructor
  · intro heq
    have hk : k ∈ r &&& flag := by
      rw [heq]
      exact (h k).mpr rfl
    exact (mem_and.mp hk).1
  · refine fun hk ↦ ext_mem fun i ↦ ?_
    rw [mem_and, h]
    exact ⟨fun hi ↦ hi.2, fun hi ↦ ⟨hi ▸ hk, hi⟩⟩

theorem Direction.wokenBy_iff {d : Direction} {ready : Ready} :
    d.wokenBy ready = true ↔ ready.Meets d.mask := by
  cases d with
  | read =>
    rw [wokenBy, Ready.isReadable, Ready.isReadClosed, Bool.or_eq_true,
      Ready.contains_iff fun _ ↦ Ready.mem_READABLE,
      Ready.contains_iff fun _ ↦ Ready.mem_READ_CLOSED]
    simp [Ready.Meets, Direction.mask, and_or_left, exists_or]
  | write =>
    rw [wokenBy, Ready.isWritable, Ready.isWriteClosed, Bool.or_eq_true,
      Ready.contains_iff fun _ ↦ Ready.mem_WRITABLE,
      Ready.contains_iff fun _ ↦ Ready.mem_WRITE_CLOSED]
    simp [Ready.Meets, Direction.mask, and_or_left, exists_or]

end ArcDischarge.Io
