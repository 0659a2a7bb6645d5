/-
  File:      GroverTax/Gtv1/Format.lean
  Subject:   The wire format of a gate list: the magic, the number of gates as a little-endian
             `u32`, and eight bytes a gate (opcode, padding, target and two controls).

  The format is read here without any check; the three decoders of the repository each check a part
  of it, and are compared through what they read.

  * `gatesOf` -- the gates a string declares;
  * `encode` -- the string of a gate list; `gatesOf_encode` and `encode_gatesOf` are the two halves
    of the round trip.
-/
import GroverTax.Gtv1.Gate
import GroverTax.Lib.Chunks

namespace GroverTax.Gtv1

open GroverTax.Lib

/-- `b"GTV1"`. -/
def MAGIC : List UInt8 := [71, 84, 86, 49]

def HEADER_BYTES : ℕ := 8
def GATE_BYTES : ℕ := 8

/-- Byte `i`, `0` beyond the end. -/
def byteAt (bytes : List UInt8) (i : ℕ) : ℕ := (bytes.getD i 0).toNat

def le16 (bytes : List UInt8) (off : ℕ) : ℕ := byteAt bytes off + byteAt bytes (off + 1) * 0x100

def le32 (bytes : List UInt8) (off : ℕ) : ℕ :=
  byteAt bytes off + byteAt bytes (off + 1) * 0x100 + byteAt bytes (off + 2) * 0x10000 +
    byteAt bytes (off + 3) * 0x1000000

/-- The declared number of gates. -/
def numGates (bytes : List UInt8) : ℕ := le32 bytes 4

/-- Where record `i` starts. -/
def gateOff (i : ℕ) : ℕ := HEADER_BYTES + i * GATE_BYTES

def gateAt (bytes : List UInt8) (i : ℕ) : Gate where
  opcode := byteAt bytes (gateOff i)
  target := le16 bytes (gateOff i + 2)
  ctrlA := le16 bytes (gateOff i + 4)
  ctrlB := le16 bytes (gateOff i + 6)

/-- The padding byte of record `i`. -/
def padAt (bytes : List UInt8) (i : ℕ) : ℕ := byteAt bytes (gateOff i + 1)

/-- **The declared gates.** -/
def gatesOf (bytes : List UInt8) : List Gate := (List.range (numGates bytes)).map (gateAt bytes)

/-- The length the header declares. -/
def declaredLength (bytes : List UInt8) : ℕ := gateOff (numGates bytes)

/-- The magic, and every declared record. -/
structure Framed (bytes : List UInt8) : Prop where
  magic : bytes.take 4 = MAGIC
  complete : declaredLength bytes ≤ bytes.length

/-- Every padding byte is `0`. -/
def PadsZero (bytes : List UInt8) : Prop := ∀ i < numGates bytes, padAt bytes i = 0

section Format

variable {bytes : List UInt8} {i off : ℕ}

theorem byteAt_lt (bytes : List UInt8) (i : ℕ) : byteAt bytes i < 256 := (bytes.getD i 0).toNat_lt

theorem le16_lt (bytes : List UInt8) (off : ℕ) : le16 bytes off < 2 ^ 16 := by
  have h0 := byteAt_lt bytes off
  have h1 := byteAt_lt bytes (off + 1)
  unfold le16
  omega

theorem le32_lt (bytes : List UInt8) (off : ℕ) : le32 bytes off < 2 ^ 32 := by
  have h0 := byteAt_lt bytes off
  have h1 := byteAt_lt bytes (off + 1)
  have h2 := byteAt_lt bytes (off + 2)
  have h3 := byteAt_lt bytes (off + 3)
  unfold le32
  omega

theorem mem_gatesOf {g : Gate} : g ∈ gatesOf bytes ↔ ∃ i < numGates bytes, gateAt bytes i = g := by
  simp [gatesOf]

theorem getElem?_eq_byteAt {v : ℕ} :
    bytes[i]?.map UInt8.toNat = some v ↔ i < bytes.length ∧ v = byteAt bytes i := by
  rw [byteAt, List.getD_eq_getElem?_getD]
  by_cases h : i < bytes.length
  · rw [List.getElem?_eq_getElem h]
    simp [h, eq_comm]
  · rw [List.getElem?_eq_none (Nat.not_lt.mp h)]
    simp [h]

/-- Four bytes compared one by one. -/
theorem take_four_eq_magic (h : 4 ≤ bytes.length) : bytes.take 4 = MAGIC ↔
    byteAt bytes 0 = 71 ∧ byteAt bytes 1 = 84 ∧ byteAt bytes 2 = 86 ∧ byteAt bytes 3 = 49 := by
  match bytes, h with
  | b0 :: b1 :: b2 :: b3 :: rest, _ =>
    simp [MAGIC, byteAt, ← UInt8.toNat_inj]

/-- Every record of a framed string lies inside it. -/
theorem Framed.gateOff_le (h : Framed bytes) (hi : i < numGates bytes) :
    gateOff i + 8 ≤ bytes.length := by
  have := h.complete
  unfold declaredLength gateOff HEADER_BYTES GATE_BYTES at *
  omega

end Format

/-! ## Writing -/

/-- A number of two bytes, the lower one first. -/
def bytes16 (v : ℕ) : List UInt8 := [UInt8.ofNat v, UInt8.ofNat (v / 0x100)]

def bytes32 (v : ℕ) : List UInt8 :=
  [UInt8.ofNat v, UInt8.ofNat (v / 0x100), UInt8.ofNat (v / 0x10000), UInt8.ofNat (v / 0x1000000)]

def encodeGate (g : Gate) : List UInt8 :=
  [UInt8.ofNat g.opcode, 0] ++ bytes16 g.target ++ bytes16 g.ctrlA ++ bytes16 g.ctrlB

/-- **The string of a gate list.** -/
def encode (gates : List Gate) : List UInt8 :=
  MAGIC ++ bytes32 gates.length ++ gates.flatMap encodeGate

/-- The fields of a gate fit the record. -/
structure Gate.Fits (g : Gate) : Prop where
  opcode : g.opcode ≤ OP_TOFFOLI
  target : g.target < 2 ^ 16
  ctrlA : g.ctrlA < 2 ^ 16
  ctrlB : g.ctrlB < 2 ^ 16

section Writing

variable {bytes : List UInt8} {gates : List Gate} {g : Gate} {i v : ℕ}

theorem ofNat_byteAt (bytes : List UInt8) (i : ℕ) : UInt8.ofNat (byteAt bytes i) = bytes.getD i 0 :=
  UInt8.ofNat_toNat

theorem ofNat_add_mul (a b : ℕ) : UInt8.ofNat (a + 256 * b) = UInt8.ofNat a :=
  UInt8.toNat_inj.mp (by rw [UInt8.toNat_ofNat', UInt8.toNat_ofNat', Nat.add_mul_mod_self_left])

theorem toNat_ofNat_mod (v : ℕ) : (UInt8.ofNat v).toNat = v % 256 := UInt8.toNat_ofNat'

theorem bytes16_le16 (bytes : List UInt8) (off : ℕ) :
    bytes16 (le16 bytes off) = [bytes.getD off 0, bytes.getD (off + 1) 0] := by
  have h0 := byteAt_lt bytes off
  have h1 : le16 bytes off / 0x100 = byteAt bytes (off + 1) := by
    unfold le16
    omega
  rw [bytes16, h1, ofNat_byteAt, le16, Nat.mul_comm, ofNat_add_mul, ofNat_byteAt]

theorem bytes32_le32 (bytes : List UInt8) (off : ℕ) : bytes32 (le32 bytes off) =
    [bytes.getD off 0, bytes.getD (off + 1) 0, bytes.getD (off + 2) 0, bytes.getD (off + 3) 0] := by
  have h0 := byteAt_lt bytes off
  have h1 := byteAt_lt bytes (off + 1)
  have h2 := byteAt_lt bytes (off + 2)
  have e0 : le32 bytes off = byteAt bytes off + 256 * (byteAt bytes (off + 1) +
      0x100 * byteAt bytes (off + 2) + 0x10000 * byteAt bytes (off + 3)) := by
    unfold le32
    omega
  have e1 : le32 bytes off / 0x100 = byteAt bytes (off + 1) + 256 * (byteAt bytes (off + 2) +
      0x100 * byteAt bytes (off + 3)) := by
    unfold le32
    omega
  have e2 : le32 bytes off / 0x10000 = byteAt bytes (off + 2) + 256 * byteAt bytes (off + 3) := by
    unfold le32
    omega
  have e3 : le32 bytes off / 0x1000000 = byteAt bytes (off + 3) := by
    unfold le32
    omega
  rw [bytes32, e1, e2, e3, e0, ofNat_add_mul, ofNat_add_mul, ofNat_add_mul, ofNat_byteAt,
    ofNat_byteAt, ofNat_byteAt, ofNat_byteAt]

theorem le16_bytes16 (h : v < 2 ^ 16) : le16 (bytes16 v) 0 = v := by
  have e0 : byteAt (bytes16 v) 0 = v % 256 := toNat_ofNat_mod v
  have e1 : byteAt (bytes16 v) (0 + 1) = v / 0x100 % 256 := toNat_ofNat_mod _
  rw [le16, e0, e1]
  omega

theorem le32_bytes32 (h : v < 2 ^ 32) : le32 (bytes32 v) 0 = v := by
  have e0 : byteAt (bytes32 v) 0 = v % 256 := toNat_ofNat_mod v
  have e1 : byteAt (bytes32 v) (0 + 1) = v / 0x100 % 256 := toNat_ofNat_mod _
  have e2 : byteAt (bytes32 v) (0 + 2) = v / 0x10000 % 256 := toNat_ofNat_mod _
  have e3 : byteAt (bytes32 v) (0 + 3) = v / 0x1000000 % 256 := toNat_ofNat_mod _
  rw [le32, e0, e1, e2, e3]
  omega

@[simp] theorem length_encodeGate (g : Gate) : (encodeGate g).length = GATE_BYTES := rfl

/-- The bytes of record `i` as a list of their own. -/
theorem getD_record (bytes : List UInt8) (i : ℕ) {k : ℕ} (hk : k < GATE_BYTES) :
    bytes.getD (gateOff i + k) 0 =
      (chunk GATE_BYTES (bytes.drop HEADER_BYTES) i).getD k 0 := by
  rw [getD_chunk hk, List.getD_eq_getElem?_getD, List.getD_eq_getElem?_getD, List.getElem?_drop,
    gateOff, Nat.mul_comm i, Nat.add_assoc]

theorem byteAt_record (bytes : List UInt8) (i : ℕ) {k : ℕ} (hk : k < GATE_BYTES) : byteAt bytes (gateOff i + k) =
    byteAt (chunk GATE_BYTES (bytes.drop HEADER_BYTES) i) k :=
  congrArg UInt8.toNat (getD_record bytes i hk)

theorem le16_record (bytes : List UInt8) (i : ℕ) {k : ℕ} (hk : k + 1 < GATE_BYTES) : le16 bytes (gateOff i + k) =
    le16 (chunk GATE_BYTES (bytes.drop HEADER_BYTES) i) k := by
  rw [le16, le16, byteAt_record bytes i (Nat.lt_of_succ_lt hk), Nat.add_assoc, byteAt_record bytes i hk]

/-- **Reading back** what was written. -/
theorem gateAt_encode (hi : i < gates.length) (hf : (gates.get ⟨i, hi⟩).Fits) :
    gateAt (encode gates) i = gates.get ⟨i, hi⟩ := by
  have hrec : chunk GATE_BYTES ((encode gates).drop HEADER_BYTES) i =
      encodeGate (gates.get ⟨i, hi⟩) := chunk_flatMap (fun g _ => length_encodeGate g) hi
  have h0 := byteAt_record (encode gates) i (show 0 < GATE_BYTES by decide)
  have h2 := le16_record (encode gates) i (show 2 + 1 < GATE_BYTES by decide)
  have h4 := le16_record (encode gates) i (show 4 + 1 < GATE_BYTES by decide)
  have h6 := le16_record (encode gates) i (show 6 + 1 < GATE_BYTES by decide)
  rw [hrec] at h0 h2 h4 h6
  obtain ⟨ho, ht, ha, hb⟩ := hf
  generalize gates.get ⟨i, hi⟩ = g at h0 h2 h4 h6 ho ht ha hb ⊢
  have e0 : byteAt (encodeGate g) 0 = g.opcode := by
    refine (toNat_ofNat_mod _).trans (Nat.mod_eq_of_lt ?_)
    unfold OP_TOFFOLI at ho
    omega
  rw [gateAt, h2, h4, h6, show byteAt (encode gates) (gateOff i) = g.opcode from h0.trans e0,
    show le16 (encodeGate g) 2 = g.target from le16_bytes16 ht,
    show le16 (encodeGate g) 4 = g.ctrlA from le16_bytes16 ha,
    show le16 (encodeGate g) 6 = g.ctrlB from le16_bytes16 hb]

/-- The padding of a written record is clear. -/
theorem padAt_encode (hi : i < gates.length) : padAt (encode gates) i = 0 := by
  have hrec : chunk GATE_BYTES ((encode gates).drop HEADER_BYTES) i =
      encodeGate (gates.get ⟨i, hi⟩) := chunk_flatMap (fun g _ => length_encodeGate g) hi
  rw [padAt, byteAt_record _ _ (by decide), hrec]
  rfl

theorem numGates_encode (h : gates.length < 2 ^ 32) : numGates (encode gates) = gates.length :=
  le32_bytes32 h

theorem length_encode (gates : List Gate) : (encode gates).length = gateOff gates.length := by
  rw [encode, List.length_append, length_flatMap_const fun g _ => length_encodeGate g, gateOff,
    Nat.mul_comm]
  rfl

/-- **A written list is read back.** -/
theorem gatesOf_encode (hlen : gates.length < 2 ^ 32) (hf : ∀ g ∈ gates, g.Fits) :
    gatesOf (encode gates) = gates := by
  rw [gatesOf, numGates_encode hlen]
  refine List.ext_getElem (by simp) fun i h1 h2 => ?_
  rw [List.getElem_map, List.getElem_range]
  exact gateAt_encode h2 (hf _ (List.getElem_mem h2))

theorem eq_map_getD {l : List UInt8} {n : ℕ} (h : l.length = n) :
    l = (List.range n).map fun j => l.getD j 0 := by
  refine List.ext_getElem (by simp [h]) fun j h1 h2 => ?_
  rw [List.getElem_map, List.getElem_range, List.getD_eq_getElem _ _ h1]

theorem encodeGate_gateAt (hlen : gateOff i + 8 ≤ bytes.length) (hpad : padAt bytes i = 0) :
    encodeGate (gateAt bytes i) = chunk GATE_BYTES (bytes.drop HEADER_BYTES) i := by
  have hpad' : bytes.getD (gateOff i + 1) 0 = 0 := UInt8.toNat_inj.mp hpad
  have hl : (chunk GATE_BYTES (bytes.drop HEADER_BYTES) i).length = 8 := by
    refine length_chunk (k := GATE_BYTES) ?_
    rw [List.length_drop]
    unfold gateOff HEADER_BYTES GATE_BYTES at *
    omega
  have hmap : (List.range 8).map (fun k => bytes.getD (gateOff i + k) 0) =
      (List.range 8).map fun k => (chunk GATE_BYTES (bytes.drop HEADER_BYTES) i).getD k 0 :=
    List.map_congr_left fun k hk => getD_record bytes i (List.mem_range.mp hk)
  rw [eq_map_getD hl, ← hmap]
  simp only [encodeGate, gateAt, bytes16_le16, ofNat_byteAt]
  exact congrArg (fun b => bytes.getD (gateOff i) 0 :: b :: _) hpad'.symm

/-- **What is read back is what was written**, when nothing but the records follows the header. -/
theorem encode_gatesOf (hf : Framed bytes) (hlen : bytes.length = declaredLength bytes)
    (hp : PadsZero bytes) : encode (gatesOf bytes) = bytes := by
  have h8 : 8 ≤ bytes.length := by
    rw [hlen, declaredLength, gateOff, HEADER_BYTES]
    omega
  have hbody : (gatesOf bytes).flatMap encodeGate = bytes.drop HEADER_BYTES := by
    rw [gatesOf, List.flatMap_map, List.flatMap_congr fun i hi =>
      encodeGate_gateAt (hf.gateOff_le (List.mem_range.mp hi)) (hp i (List.mem_range.mp hi)),
      flatMap_chunk, List.take_of_length_le]
    rw [List.length_drop, hlen, declaredLength, gateOff, Nat.add_sub_cancel_left, Nat.mul_comm]
  have hcount : (gatesOf bytes).length = le32 bytes 4 := by
    rw [gatesOf, List.length_map, List.length_range]
    rfl
  have hhead : bytes32 (le32 bytes 4) = (bytes.drop 4).take 4 := by
    have hl : ((bytes.drop 4).take 4).length = 4 := by
      rw [List.length_take, List.length_drop]
      omega
    rw [bytes32_le32, eq_map_getD hl]
    simp [List.range_succ, List.getD_eq_getElem?_getD]
  rw [encode, hbody, hcount, hhead, ← hf.magic, ← List.take_add]
  exact List.take_append_drop 8 bytes

end Writing

end GroverTax.Gtv1
