import ArcDischarge.Io.Chain
import ArcDischarge.Io.Word

/-!
# Tokens

`Handle::add_source` (`src/io/mod.rs`) registers a source with mio under a token: the key of its
slot in the low bits, which are all but the bits that `SlabConfig` reserves, and the generation of
the slot's word above it. The two fields leave the highest bit of the word alone, so that no token
is `usize::MAX`, the token of the driver's own waker.

Of the slab only the result of `create` is used, and of mio the result of `register`. Everything is
for a pointer width `W`.
-/

namespace ArcDischarge.Io.Token

variable {W : ℕ}

/-- `SlabConfig::RESERVED_BITS`. -/
def RESERVED_BITS : ℕ := 8

/-- `sharded_slab::Pool::<ScheduledIo, SlabConfig>::USED_BITS`: no key has a bit above these. -/
def USED_BITS (W : ℕ) : ℕ := W - RESERVED_BITS

def ADDRESS (W : ℕ) : Pack W := .leastSignificant (USED_BITS W)

def GENERATION (W : ℕ) : Pack W := (ADDRESS W).then' 7

/-- `mio::Token(usize::MAX)`. -/
def WAKE_TOKEN (W : ℕ) : BitVec W := .allOnes W

/-- The `GENERATION` of the readiness word, above its `READINESS` and its `TICK`. -/
def STATE_GENERATION (W : ℕ) : Pack W := ((Pack.leastSignificant 16).then' 8).then' 7

/-- `GENERATION.pack(generation, ADDRESS.pack(key, 0))`. -/
def token? (key generation : BitVec W) : Option (BitVec W) := do
  let address ← (ADDRESS W).pack? key 0#W
  (GENERATION W).pack? generation address

/-- What `slab_entry` returns: the key of the slot, and the readiness word in it. -/
structure Entry (W : ℕ) where
  key : BitVec W
  readiness : BitVec W
  deriving DecidableEq, Repr

namespace Entry

/-- `ScheduledIo::generation`. -/
def generation? (entry : Entry W) : Option (BitVec W) :=
  (STATE_GENERATION W).unpack? entry.readiness

/-- The token that `add_source` registers the source under. -/
def token? (entry : Entry W) : Option (BitVec W) := do
  let generation ← entry.generation?
  Token.token? entry.key generation

end Entry

inductive Error (ε : Type) where
  /-- `ErrorKind::OutOfMemory`. -/
  | outOfMemory (message : String)
  /-- An error of `registry.register`. -/
  | register (e : ε)
  deriving DecidableEq, Repr

/-- `add_source`, from what `slab_entry` returns; `none` is a panic. -/
def addSource {ε : Type} (register : BitVec W → Except ε Unit) :
    Option (Entry W) → Option (Except (Error ε) (BitVec W))
  | none => some (.error (.outOfMemory "could not allocate slot for IO entry"))
  | some entry => do
    let token ← entry.token?
    match register token with
    | .error e => return .error (.register e)
    | .ok () => return .ok entry.key

/-! ## The two layouts -/

/-- `ADDRESS`, and `GENERATION` above it. -/
def layout (hW : 8 < W) : Layout W where
  first := USED_BITS W
  rest := [7]
  bounds w hw := by
    simp only [USED_BITS, RESERVED_BITS, List.mem_cons, List.not_mem_nil, or_false] at hw
    omega
  sum_le := by
    simp only [USED_BITS, RESERVED_BITS, List.sum_cons, List.sum_nil]
    omega

/-- The layout of the readiness word: readiness, tick, generation and the shutdown flag. -/
def stateLayout (hW : 32 ≤ W) : Layout W where
  first := 16
  rest := [8, 7, 1]
  bounds w hw := by
    simp only [List.mem_cons, List.not_mem_nil, or_false] at hw
    omega
  sum_le := by
    simp only [List.sum_cons, List.sum_nil]
    omega

theorem laws_ADDRESS (hW : 8 < W) :
    FieldLaws [ADDRESS W, GENERATION W] 0 (ADDRESS W) 0 (USED_BITS W) :=
  Layout.laws_of_getElem? (l := layout hW) rfl rfl

theorem laws_GENERATION (hW : 8 < W) :
    FieldLaws [ADDRESS W, GENERATION W] 1 (GENERATION W) (USED_BITS W) 7 :=
  Layout.laws_of_getElem? (l := layout hW) rfl rfl

theorem spans_STATE_GENERATION (hW : 32 ≤ W) : (STATE_GENERATION W).Spans 24 7 :=
  (Layout.laws_of_getElem? (l := stateLayout hW) (i := 2) rfl rfl).spans

example : (stateLayout (W := 64) (by decide)).fields =
    [READINESS, TICK, Io.GENERATION, SHUTDOWN] := rfl

/-! ## What a token says -/

/-- The tokens are those of a key and a generation that fit; each says both, and none is the
driver's. -/
structure Determined (W : ℕ) : Prop where
  panics : ∀ key generation : BitVec W,
    token? key generation = none ↔ 2 ^ USED_BITS W ≤ key.toNat ∨ 2 ^ 7 ≤ generation.toNat
  decodes : ∀ key generation token : BitVec W, token? key generation = some token →
    (ADDRESS W).unpack? token = some key ∧ (GENERATION W).unpack? token = some generation
  injective : ∀ key generation key' generation' token : BitVec W,
    token? key generation = some token → token? key' generation' = some token →
      key = key' ∧ generation = generation'
  ne_wake : ∀ key generation token : BitVec W, token? key generation = some token →
    token ≠ WAKE_TOKEN W

/-- What `add_source` registers the sources under. -/
structure Registers (W : ℕ) : Prop where
  /-- With a key of the slab no assertion fails. -/
  registers : ∀ entry : Entry W, entry.key.toNat < 2 ^ USED_BITS W →
    ∃ token, entry.token? = some token ∧
      ∀ (ε : Type) (register : BitVec W → Except ε Unit),
        addSource register (some entry) = some (match register token with
          | .error e => .error (.register e)
          | .ok () => .ok entry.key)
  injective : ∀ (entry entry' : Entry W) (token : BitVec W), entry.token? = some token →
    entry'.token? = some token →
      entry.key = entry'.key ∧ entry.generation? = entry'.generation?
  ne_wake : ∀ (entry : Entry W) (token : BitVec W), entry.token? = some token →
    token ≠ WAKE_TOKEN W

variable {key generation token : BitVec W}

theorem token?_eq_some : token? key generation = some token ↔
    ∃ address, (ADDRESS W).pack? key 0#W = some address ∧
      (GENERATION W).pack? generation address = some token := by
  rw [token?, Option.bind_eq_bind, Option.bind_eq_some_iff]

theorem token?_eq_none (hW : 8 < W) : token? key generation = none ↔
    2 ^ USED_BITS W ≤ key.toNat ∨ 2 ^ 7 ≤ generation.toNat := by
  rw [← (laws_ADDRESS hW).panics key 0#W, token?]
  cases (ADDRESS W).pack? key 0#W with
  | none => simp
  | some address =>
    rw [Option.bind_eq_bind, Option.bind_some, (laws_GENERATION hW).panics]
    simp

theorem unpack?_token (hW : 8 < W) (h : token? key generation = some token) :
    (ADDRESS W).unpack? token = some key ∧ (GENERATION W).unpack? token = some generation := by
  obtain ⟨address, haddress, htoken⟩ := token?_eq_some.mp h
  refine ⟨?_, (laws_GENERATION hW).own _ _ _ htoken⟩
  -- packing the generation leaves the address below it as it is
  rw [(laws_GENERATION hW).others _ _ _ htoken 0 (ADDRESS W) (by decide) rfl]
  exact (laws_ADDRESS hW).own _ _ _ haddress

/-- The highest bit is in neither field. -/
theorem token_ne_wake (hW : 8 < W) (h : token? key generation = some token) :
    token ≠ WAKE_TOKEN W := by
  obtain ⟨address, haddress, htoken⟩ := token?_eq_some.mp h
  have hused : USED_BITS W = W - 8 := rfl
  have hlow : address.getLsbD (W - 1) = false := by
    rw [(laws_ADDRESS hW).outside _ _ _ haddress (W - 1) (by omega)]
    exact BitVec.getLsbD_zero
  have htop : token.getLsbD (W - 1) = false := by
    rw [(laws_GENERATION hW).outside _ _ _ htoken (W - 1) (by omega), hlow]
  rintro rfl
  rw [WAKE_TOKEN, BitVec.getLsbD_allOnes, decide_eq_false_iff_not] at htop
  omega

theorem determined (hW : 8 < W) : Determined W where
  panics _ _ := token?_eq_none hW
  decodes _ _ _ h := unpack?_token hW h
  injective key generation key' generation' token h h' := by
    obtain ⟨hkey, hgeneration⟩ := unpack?_token hW h
    obtain ⟨hkey', hgeneration'⟩ := unpack?_token hW h'
    exact ⟨Option.some.inj (hkey.symm.trans hkey'),
      Option.some.inj (hgeneration.symm.trans hgeneration')⟩
  ne_wake _ _ _ h := token_ne_wake hW h

theorem Entry.token?_eq_some {entry : Entry W} : entry.token? = some token ↔
    ∃ generation, entry.generation? = some generation ∧
      Token.token? entry.key generation = some token := by
  rw [Entry.token?, Option.bind_eq_bind, Option.bind_eq_some_iff]

/-- The generation comes from a field of seven bits. -/
theorem exists_token (hW : 32 ≤ W) {entry : Entry W} (hkey : entry.key.toNat < 2 ^ USED_BITS W) :
    ∃ token, entry.token? = some token := by
  have hspans := spans_STATE_GENERATION hW
  have hgeneration : entry.generation? = some ((STATE_GENERATION W).unpack entry.readiness) :=
    hspans.unpack?_eq entry.readiness
  have hlt := hspans.toNat_unpack_lt entry.readiness
  cases htoken : entry.token? with
  | some token => exact ⟨token, rfl⟩
  | none =>
    rw [Entry.token?, hgeneration, Option.bind_eq_bind, Option.bind_some,
      token?_eq_none (by omega)] at htoken
    omega

theorem registers (hW : 32 ≤ W) : Registers W where
  registers entry hkey := by
    obtain ⟨token, htoken⟩ := exists_token hW hkey
    refine ⟨token, htoken, fun ε register ↦ ?_⟩
    rw [addSource, htoken, Option.bind_eq_bind, Option.bind_some]
    cases register token with
    | error e => rfl
    | ok => rfl
  injective entry entry' token h h' := by
    obtain ⟨generation, hgeneration, htoken⟩ := Entry.token?_eq_some.mp h
    obtain ⟨generation', hgeneration', htoken'⟩ := Entry.token?_eq_some.mp h'
    obtain ⟨hkey, heq⟩ := (determined (by omega)).injective _ _ _ _ _ htoken htoken'
    exact ⟨hkey, by rw [hgeneration, hgeneration', heq]⟩
  ne_wake entry token h := by
    obtain ⟨generation, -, htoken⟩ := Entry.token?_eq_some.mp h
    exact token_ne_wake (by omega) htoken

/-- **Bit-field packing is a lawful product encoding**, for every pointer width and every chain that
fits into a word; and so the token of `add_source` says the key and the generation that it is made
of, and is never the token of the driver's waker. -/
theorem productEncoding : (∀ (W : ℕ) (l : Layout W), l.Lawful) ∧
    (∀ W : ℕ, 8 < W → Determined W) ∧ ∀ W : ℕ, 32 ≤ W → Registers W :=
  ⟨fun _ l ↦ l.lawful, fun _ hW ↦ determined hW, fun _ hW ↦ registers hW⟩

/-- Slot 9, in use for the fourth time and readable since tick 5. -/
def slotNine : Entry 64 := ⟨0x9#64, 0x03050001#64⟩

theorem productEncoding_slotNine : (stateLayout (by decide : 32 ≤ 64)).Lawful ∧
    slotNine.token? = some 0x0300000000000009#64 ∧
      (ADDRESS 64).unpack? 0x0300000000000009#64 = some 0x9#64 ∧
        (GENERATION 64).unpack? 0x0300000000000009#64 = some 0x3#64 ∧
          0x0300000000000009#64 ≠ WAKE_TOKEN 64 := by
  have hentry : slotNine.token? = some 0x0300000000000009#64 := by decide
  have htoken : token? 0x9#64 0x3#64 = some 0x0300000000000009#64 := by decide
  obtain ⟨hlawful, hdetermined, hregisters⟩ := productEncoding
  obtain ⟨hkey, hgeneration⟩ := (hdetermined 64 (by decide)).decodes _ _ _ htoken
  exact ⟨hlawful 64 _, hentry, hkey, hgeneration,
    (hregisters 64 (by decide)).ne_wake slotNine _ hentry⟩

end ArcDischarge.Io.Token
