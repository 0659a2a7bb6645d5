/-
  File:      GroverTax/Cairo/Serialise.lean
  Subject:   The codec of src/stwo-side/cairo/src/serialise.cairo.

  The decoder reads what it needs and never looks at the length of its input, so it panics on a
  missing byte and takes any bytes after the last record: `deserialise_eq_some`. The encoder writes
  the records and nothing else: `canonicalSerialise_eq`.
-/
import GroverTax.Gtv1.Format
import GroverTax.Lib.Checked
import GroverTax.Lib.Run

namespace GroverTax.Cairo

open GroverTax.Lib GroverTax.Gtv1

/-- `(*bytes.at(i)).into()`. -/
def at32 (bytes : List UInt8) (i : ℕ) : Option ℕ := bytes[i]?.map UInt8.toNat

/-- `b0 + b1 * 0x100 + b2 * 0x10000 + b3 * 0x1000000`. -/
def joinBytes (b0 b1 b2 b3 : ℕ) : Option ℕ := do
  let low ← checkedAdd 32 b0 (← checkedMul 32 b1 0x100)
  let mid ← checkedAdd 32 low (← checkedMul 32 b2 0x10000)
  checkedAdd 32 mid (← checkedMul 32 b3 0x1000000)

def readU32Le (bytes : List UInt8) (off : ℕ) : Option ℕ := do
  let b0 ← at32 bytes off
  let b1 ← at32 bytes (← checkedAdd 32 off 1)
  let b2 ← at32 bytes (← checkedAdd 32 off 2)
  let b3 ← at32 bytes (← checkedAdd 32 off 3)
  joinBytes b0 b1 b2 b3

def readU16Le (bytes : List UInt8) (off : ℕ) : Option ℕ := do
  let b0 ← at32 bytes off
  let b1 ← at32 bytes (← checkedAdd 32 off 1)
  checkedAdd 32 b0 (← checkedMul 32 b1 0x100)

/-- `assert!(*bytes.at(i) == want)`. -/
def assertByte (bytes : List UInt8) (i want : ℕ) : Option Unit := do
  if (← at32 bytes i) = want then some () else none

/-- One round of the loop of `deserialise`. -/
def readGate (bytes : List UInt8) (i : ℕ) : Option Gate := do
  let base ← checkedAdd 32 HEADER_BYTES (← checkedMul 32 i GATE_BYTES)
  let opcode ← at32 bytes base
  assertByte bytes (← checkedAdd 32 base 1) 0
  let target ← readU16Le bytes (← checkedAdd 32 base 2)
  let ctrlA ← readU16Le bytes (← checkedAdd 32 base 4)
  let ctrlB ← readU16Le bytes (← checkedAdd 32 base 6)
  return { opcode, target, ctrlA, ctrlB }

def deserialise (bytes : List UInt8) : Option (List Gate) := do
  assertByte bytes 0 71
  assertByte bytes 1 84
  assertByte bytes 2 86
  assertByte bytes 3 49
  let nGates ← readU32Le bytes 4
  (List.range nGates).mapM (readGate bytes)

section Decoder

variable {bytes : List UInt8} {i off v : ℕ}

theorem at32_eq_some : at32 bytes i = some v ↔ i < bytes.length ∧ v = byteAt bytes i :=
  getElem?_eq_byteAt

theorem assertByte_eq_some {want : ℕ} {u : Unit} :
    assertByte bytes i want = some u ↔ i < bytes.length ∧ byteAt bytes i = want := by
  simp only [assertByte, Option.bind_eq_bind, Option.bind_eq_some_iff, at32_eq_some]
  constructor
  · intro h'
    obtain ⟨_, ⟨hi, rfl⟩, h⟩ := h'
    exact ⟨hi, by_contra fun hne => by rw [if_neg hne] at h; cases h⟩
  · intro h'
    obtain ⟨hi, h⟩ := h'
    exact ⟨_, ⟨hi, rfl⟩, if_pos h⟩

theorem readU16Le_eq_some : readU16Le bytes off = some v ↔
    (off + 1 < bytes.length ∧ off + 1 < 2 ^ 32) ∧ v = le16 bytes off := by
  have h0 := byteAt_lt bytes off
  have h1 := byteAt_lt bytes (off + 1)
  simp only [readU16Le, Option.bind_eq_bind, Option.bind_eq_some_iff, at32_eq_some,
    checkedAdd_eq_some, checkedMul_eq_some]
  constructor
  · intro h
    obtain ⟨_, ⟨-, rfl⟩, _, ⟨ho, rfl⟩, _, ⟨hi, rfl⟩, _, ⟨-, rfl⟩, -, rfl⟩ := h
    exact ⟨⟨hi, ho⟩, rfl⟩
  · intro h
    obtain ⟨⟨hi, ho⟩, rfl⟩ := h
    exact ⟨_, ⟨by omega, rfl⟩, _, ⟨ho, rfl⟩, _, ⟨hi, rfl⟩, _, ⟨by omega, rfl⟩, by omega, rfl⟩

theorem joinBytes_eq {b0 b1 b2 b3 : ℕ} (h0 : b0 < 256) (h1 : b1 < 256) (h2 : b2 < 256)
    (h3 : b3 < 256) :
    joinBytes b0 b1 b2 b3 = some (b0 + b1 * 0x100 + b2 * 0x10000 + b3 * 0x1000000) := by
  simp only [joinBytes, Option.bind_eq_bind, Option.bind_eq_some_iff, checkedAdd_eq_some,
    checkedMul_eq_some]
  exact ⟨_, ⟨by omega, rfl⟩, _, ⟨by omega, rfl⟩, _, ⟨by omega, rfl⟩, _, ⟨by omega, rfl⟩, _,
    ⟨by omega, rfl⟩, by omega, rfl⟩

theorem joinBytes_byteAt (bytes : List UInt8) (i j k l : ℕ) :
    joinBytes (byteAt bytes i) (byteAt bytes j) (byteAt bytes k) (byteAt bytes l) =
      some (byteAt bytes i + byteAt bytes j * 0x100 + byteAt bytes k * 0x10000 +
        byteAt bytes l * 0x1000000) :=
  joinBytes_eq (byteAt_lt _ _) (byteAt_lt _ _) (byteAt_lt _ _) (byteAt_lt _ _)

theorem readU32Le_eq_some : readU32Le bytes off = some v ↔
    (off + 3 < bytes.length ∧ off + 3 < 2 ^ 32) ∧ v = le32 bytes off := by
  simp only [readU32Le, Option.bind_eq_bind, Option.bind_eq_some_iff, at32_eq_some,
    checkedAdd_eq_some]
  constructor
  · rintro ⟨_, ⟨-, rfl⟩, _, ⟨-, rfl⟩, _, ⟨-, rfl⟩, _, ⟨-, rfl⟩, _, ⟨-, rfl⟩, _, ⟨ho, rfl⟩, _,
      ⟨hi, rfl⟩, h⟩
    rw [joinBytes_byteAt] at h
    exact ⟨⟨hi, ho⟩, (Option.some.inj h).symm⟩
  · intro h'
    obtain ⟨⟨hi, ho⟩, rfl⟩ := h'
    exact ⟨_, ⟨by omega, rfl⟩, _, ⟨by omega, rfl⟩, _, ⟨by omega, rfl⟩, _, ⟨by omega, rfl⟩, _,
      ⟨by omega, rfl⟩, _, ⟨by omega, rfl⟩, _, ⟨hi, rfl⟩, joinBytes_byteAt _ _ _ _ _⟩

/-- A record is read when it is there, at offsets of 32 bits, and its padding is clear. -/
theorem readGate_eq_some {g : Gate} : readGate bytes i = some g ↔
    (gateOff i + 8 ≤ bytes.length ∧ gateOff i + 8 ≤ 2 ^ 32 ∧ padAt bytes i = 0) ∧
      g = gateAt bytes i := by
  simp only [readGate, Option.bind_eq_bind, Option.bind_eq_some_iff, at32_eq_some,
    checkedAdd_eq_some, checkedMul_eq_some, assertByte_eq_some, readU16Le_eq_some,
    Option.pure_def, Option.some.injEq]
  constructor
  · rintro ⟨_, ⟨-, rfl⟩, _, ⟨-, rfl⟩, _, ⟨-, rfl⟩, _, ⟨-, rfl⟩, _, ⟨-, hpad⟩, _, ⟨-, rfl⟩, _,
      ⟨-, rfl⟩, _, ⟨-, rfl⟩, _, ⟨-, rfl⟩, _, ⟨-, rfl⟩, _, ⟨⟨hi, ho⟩, rfl⟩, rfl⟩
    exact ⟨⟨by unfold gateOff; omega, by unfold gateOff; omega, hpad⟩, rfl⟩
  · intro h
    obtain ⟨⟨hi, ho, hpad⟩, rfl⟩ := h
    unfold gateOff at hi ho
    unfold HEADER_BYTES GATE_BYTES at *
    exact ⟨_, ⟨by omega, rfl⟩, _, ⟨by omega, rfl⟩, _, ⟨by omega, rfl⟩, _, ⟨by omega, rfl⟩, (),
      ⟨by omega, hpad⟩, _, ⟨by omega, rfl⟩, _, ⟨⟨by omega, by omega⟩, rfl⟩, _, ⟨by omega, rfl⟩, _,
      ⟨⟨by omega, by omega⟩, rfl⟩, _, ⟨by omega, rfl⟩, _, ⟨⟨by omega, by omega⟩, rfl⟩, rfl⟩

/-- **The decoder** takes every framed string with clear padding whose records lie at offsets of 32
    bits, whatever follows them. -/
theorem deserialise_eq_some {gates : List Gate} : deserialise bytes = some gates ↔
    (Framed bytes ∧ declaredLength bytes ≤ 2 ^ 32) ∧ PadsZero bytes ∧ gates = gatesOf bytes := by
  simp only [deserialise, Option.bind_eq_bind, Option.bind_eq_some_iff, assertByte_eq_some,
    readU32Le_eq_some]
  have hmap : ∀ {n : ℕ}, (List.range n).mapM (readGate bytes) = some gates ↔
      (∀ i ∈ List.range n, gateOff i + 8 ≤ bytes.length ∧ gateOff i + 8 ≤ 2 ^ 32 ∧
        padAt bytes i = 0) ∧ gates = (List.range n).map (gateAt bytes) :=
    fun {n} => mapM_eq_some_iff fun i _ g => readGate_eq_some
  constructor
  · intro h'
    obtain ⟨_, ⟨_, h0⟩, _, ⟨_, h1⟩, _, ⟨_, h2⟩, _, ⟨h3, h3'⟩, _, ⟨⟨h7, _⟩, rfl⟩, h⟩ := h'
    obtain ⟨hall, rfl⟩ := hmap.mp h
    -- the last record, if there is one, ends the declared length
    have hend : declaredLength bytes ≤ bytes.length ∧ declaredLength bytes ≤ 2 ^ 32 := by
      unfold declaredLength numGates
      cases hn : le32 bytes 4 with
      | zero =>
        unfold gateOff HEADER_BYTES
        omega
      | succ m =>
        obtain ⟨hm, hm', _⟩ := hall m (List.mem_range.mpr (by omega))
        unfold gateOff GATE_BYTES at *
        omega
    exact ⟨⟨⟨(take_four_eq_magic (by omega)).mpr ⟨h0, h1, h2, h3'⟩, hend.1⟩, hend.2⟩,
      fun i hi => (hall i (List.mem_range.mpr hi)).2.2, rfl⟩
  · intro h'
    obtain ⟨⟨hf, hd⟩, hp, rfl⟩ := h'
    have h8 : 8 ≤ bytes.length := by
      have := hf.complete
      unfold declaredLength gateOff HEADER_BYTES at this
      omega
    have hoff : ∀ i < numGates bytes, gateOff i + 8 ≤ 2 ^ 32 := by
      intro i hi
      refine le_trans ?_ hd
      unfold declaredLength gateOff GATE_BYTES
      omega
    obtain ⟨h0, h1, h2, h3⟩ := (take_four_eq_magic (by omega)).mp hf.magic
    exact ⟨(), ⟨by omega, h0⟩, (), ⟨by omega, h1⟩, (), ⟨by omega, h2⟩, (), ⟨by omega, h3⟩, _,
      ⟨⟨by omega, by omega⟩, rfl⟩, hmap.mpr ⟨fun i hi => ⟨hf.gateOff_le (List.mem_range.mp hi),
        hoff i (List.mem_range.mp hi), hp i (List.mem_range.mp hi)⟩, rfl⟩⟩

end Decoder

/-! ## The encoder -/

def pushMagic (buf : List UInt8) : List UInt8 := buf ++ [71, 84, 86, 49]

def pushU32Le (buf : List UInt8) (value : ℕ) : Option (List UInt8) := do
  let b0 ← tryInto 8 (value &&& 0xFF)
  let b1 ← tryInto 8 (value / 0x100 &&& 0xFF)
  let b2 ← tryInto 8 (value / 0x10000 &&& 0xFF)
  let b3 ← tryInto 8 (value / 0x1000000 &&& 0xFF)
  return buf ++ [UInt8.ofNat b0, UInt8.ofNat b1, UInt8.ofNat b2, UInt8.ofNat b3]

def pushU16Le (buf : List UInt8) (value : ℕ) : Option (List UInt8) := do
  let b0 ← tryInto 8 (value &&& 0xFF)
  let b1 ← tryInto 8 (value / 0x100 &&& 0xFF)
  return buf ++ [UInt8.ofNat b0, UInt8.ofNat b1]

def pushGate (buf : List UInt8) (gate : Gate) : Option (List UInt8) := do
  let opcodeByte ← tryInto 8 (gate.opcode &&& 0xFF)
  let buf := buf ++ [UInt8.ofNat opcodeByte] ++ [0]
  let buf ← pushU16Le buf gate.target
  let buf ← pushU16Le buf gate.ctrlA
  pushU16Le buf gate.ctrlB

def canonicalSerialise (gates : List Gate) : Option (List UInt8) := do
  let out ← pushU32Le (pushMagic []) gates.length
  run pushGate out gates

section Encoder

variable {buf : List UInt8} {v : ℕ} {g : Gate}

theorem tryInto_low (v : ℕ) : tryInto 8 (v &&& 0xFF) = some (v % 256) := by
  have e : v &&& 0xFF = v % 256 := Nat.and_two_pow_sub_one_eq_mod v 8
  rw [e]
  exact tryInto_of_lt (Nat.mod_lt _ (by decide))

theorem ofNat_low (v : ℕ) : UInt8.ofNat (v % 256) = UInt8.ofNat v :=
  UInt8.toNat_inj.mp (by rw [toNat_ofNat_mod, toNat_ofNat_mod, Nat.mod_mod])

theorem pushU16Le_eq : pushU16Le buf v = some (buf ++ bytes16 v) := by
  simp only [pushU16Le, tryInto_low, Option.bind_eq_bind, Option.bind_some, ofNat_low]
  rfl

theorem pushU32Le_eq : pushU32Le buf v = some (buf ++ bytes32 v) := by
  simp only [pushU32Le, tryInto_low, Option.bind_eq_bind, Option.bind_some, ofNat_low]
  rfl

theorem pushGate_eq : pushGate buf g = some (buf ++ encodeGate g) := by
  simp only [pushGate, tryInto_low, Option.bind_eq_bind, Option.bind_some, ofNat_low, pushU16Le_eq,
    encodeGate, List.append_assoc]
  rfl

theorem run_pushGate : ∀ (gates : List Gate) (buf : List UInt8),
    run pushGate buf gates = some (buf ++ gates.flatMap encodeGate)
  | [], buf => by rw [List.flatMap_nil, List.append_nil]; rfl
  | g :: gates, buf => by
      rw [run_cons, pushGate_eq, Option.bind_some, run_pushGate gates, List.flatMap_cons,
        List.append_assoc]

/-- **The encoder** never panics. -/
theorem canonicalSerialise_eq (gates : List Gate) :
    canonicalSerialise gates = some (encode gates) := by
  rw [canonicalSerialise, pushU32Le_eq]
  exact run_pushGate gates _

end Encoder

end GroverTax.Cairo
