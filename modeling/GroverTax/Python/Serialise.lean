/-
  File:      GroverTax/Python/Serialise.lean
  Subject:   The codec of src/python/grover_tax/serialise.py.

  `struct.pack` and `struct.unpack_from` write and read the little-endian fields of the format.
  `deserialise_eq_ok` lists what the decoder checks: the magic, the exact length, the padding and
  the opcodes, but no wire. `codec_bijective` says that the two are inverse to each other.
-/
import GroverTax.Gtv1.Format
import GroverTax.Lib.Run

namespace GroverTax.Python

open GroverTax.Lib GroverTax.Gtv1

/-- The exceptions of `deserialise`, with the data they print. -/
inductive SerialiseError where
  /-- deserialise: input too short — {len} bytes, header is {HEADER_BYTES} -/
  | tooShort (len : ℕ)
  /-- deserialise: bad magic {magic!r}, want {MAGIC!r} -/
  | badMagic (magic : List UInt8)
  /-- deserialise: declared n_gates={n_gates} expects {expected_total} bytes, got {len} -/
  | lengthMismatch (nGates expectedTotal len : ℕ)
  /-- deserialise: gate {i}: pad byte must be 0, got {pad} -/
  | nonZeroPad (i pad : ℕ)
  /-- deserialise: gate {i}: unknown opcode {opcode} -/
  | unknownOpcode (i opcode : ℕ)
  deriving DecidableEq, Repr

/-- `_VALID_OPCODES`. -/
def VALID_OPCODES : List ℕ := [OP_NOP, OP_NOT, OP_CNOT, OP_TOFFOLI]

/-- One round of the loop of `deserialise`. -/
def unpackGate (data : List UInt8) (i : ℕ) : Except SerialiseError Gate :=
  let off := HEADER_BYTES + i * GATE_BYTES
  let opcode := byteAt data off
  let pad := byteAt data (off + 1)
  if pad ≠ 0 then .error (.nonZeroPad i pad)
  else if opcode ∉ VALID_OPCODES then .error (.unknownOpcode i opcode)
  else .ok ⟨opcode, le16 data (off + 2), le16 data (off + 4), le16 data (off + 6)⟩

def deserialise (data : List UInt8) : Except SerialiseError (List Gate) :=
  if data.length < HEADER_BYTES then .error (.tooShort data.length)
  else
    let magic := data.take 4
    let nGates := le32 data 4
    if magic ≠ MAGIC then .error (.badMagic magic)
    else
      let expectedTotal := HEADER_BYTES + nGates * GATE_BYTES
      if data.length ≠ expectedTotal then
        .error (.lengthMismatch nGates expectedTotal data.length)
      else (List.range nGates).mapM (unpackGate data)

section Decoder

variable {data : List UInt8} {i : ℕ}

theorem mem_validOpcodes {opcode : ℕ} : opcode ∈ VALID_OPCODES ↔ opcode ≤ OP_TOFFOLI := by
  unfold VALID_OPCODES OP_NOP OP_NOT OP_CNOT OP_TOFFOLI
  simp only [List.mem_cons, List.not_mem_nil, or_false]
  omega

/-- The loop's round, in the words of the format. -/
theorem unpackGate_eq (data : List UInt8) (i : ℕ) : unpackGate data i =
    if padAt data i ≠ 0 then .error (.nonZeroPad i (padAt data i))
    else if (gateAt data i).opcode ∉ VALID_OPCODES then
      .error (.unknownOpcode i (gateAt data i).opcode)
    else .ok (gateAt data i) := rfl

theorem deserialise_eq (data : List UInt8) : deserialise data =
    if data.length < HEADER_BYTES then .error (.tooShort data.length)
    else if data.take 4 ≠ MAGIC then .error (.badMagic (data.take 4))
    else if data.length ≠ declaredLength data then
      .error (.lengthMismatch (numGates data) (declaredLength data) data.length)
    else (List.range (numGates data)).mapM (unpackGate data) := rfl

theorem unpackGate_eq_ok {g : Gate} : (unpackGate data i).toOption = some g ↔
    (padAt data i = 0 ∧ (gateAt data i).opcode ≤ OP_TOFFOLI) ∧ g = gateAt data i := by
  rw [toOption_eq_some, ← mem_validOpcodes, unpackGate_eq]
  by_cases hpad : padAt data i = 0
  · rw [if_neg (not_not.mpr hpad)]
    by_cases hop : (gateAt data i).opcode ∈ VALID_OPCODES
    · rw [if_neg (not_not.mpr hop)]
      exact ⟨fun h => ⟨⟨hpad, hop⟩, (Except.ok.inj h).symm⟩, fun h => congrArg _ h.2.symm⟩
    · rw [if_pos hop]
      exact iff_of_false (fun h => by cases h) fun h => hop h.1.2
  · rw [if_pos hpad]
    exact iff_of_false (fun h => by cases h) fun h => hpad h.1.1

/-- **The decoder** takes the strings of exactly the declared length with clear padding and known
    opcodes. -/
theorem deserialise_eq_ok {gates : List Gate} : deserialise data = .ok gates ↔
    (Framed data ∧ data.length = declaredLength data) ∧ PadsZero data ∧
      (∀ g ∈ gatesOf data, g.opcode ≤ OP_TOFFOLI) ∧ gates = gatesOf data := by
  have hmap : (List.range (numGates data)).mapM (unpackGate data) = .ok gates ↔
      (∀ i ∈ List.range (numGates data),
        padAt data i = 0 ∧ (gateAt data i).opcode ≤ OP_TOFFOLI) ∧ gates = gatesOf data := by
    rw [← toOption_eq_some, toOption_mapM]
    exact mapM_eq_some_iff fun i _ g => unpackGate_eq_ok
  have hall : (∀ i ∈ List.range (numGates data),
      padAt data i = 0 ∧ (gateAt data i).opcode ≤ OP_TOFFOLI) ↔
        PadsZero data ∧ ∀ g ∈ gatesOf data, g.opcode ≤ OP_TOFFOLI := by
    simp only [List.mem_range, PadsZero, gatesOf, List.mem_map]
    constructor
    · intro h
      refine ⟨fun i hi => (h i hi).1, ?_⟩
      rintro _ ⟨i, hi, rfl⟩
      exact (h i hi).2
    · rintro ⟨hp, ho⟩ i hi
      exact ⟨hp i hi, ho _ ⟨i, hi, rfl⟩⟩
  rw [hall, and_assoc] at hmap
  rw [deserialise_eq]
  by_cases hlen : data.length = declaredLength data
  · have h8 : ¬ data.length < HEADER_BYTES := by
      rw [hlen, declaredLength, gateOff]
      omega
    by_cases hmagic : data.take 4 = MAGIC
    · rw [if_neg h8, if_neg (not_not.mpr hmagic), if_neg (not_not.mpr hlen), hmap]
      exact (and_iff_right ⟨⟨hmagic, hlen.ge⟩, hlen⟩).symm
    · rw [if_neg h8, if_pos hmagic]
      exact iff_of_false (fun h => by cases h) fun h => hmagic h.1.1.magic
  · refine iff_of_false (fun h => ?_) fun h => hlen h.1.2
    rw [if_pos hlen] at h
    split_ifs at h

/-- No string but that of some list is decoded. -/
theorem encode_of_deserialise {gates : List Gate} (h : deserialise data = .ok gates) :
    encode gates = data := by
  obtain ⟨⟨hf, hlen⟩, hp, -, rfl⟩ := deserialise_eq_ok.mp h
  exact encode_gatesOf hf hlen hp

end Decoder

/-! ## The encoder -/

def U16_MAX : ℕ := 0xFFFF
def U32_MAX : ℕ := 0xFFFFFFFF

/-- The exceptions of `serialise`, with the data they print. -/
inductive EncodeError where
  /-- serialise: too many gates ({n_gates}); u32 max is {_U32_MAX} -/
  | tooManyGates (nGates : ℕ)
  /-- serialise: gate {index}: unknown opcode {opcode} -/
  | unknownOpcode (index opcode : ℕ)
  /-- serialise: gate {index}: {name}={value} out of u16 range -/
  | outOfRange (index : ℕ) (name : String) (value : ℕ)
  deriving DecidableEq, Repr

/-- `_validate_gate`; the fields of a gate are natural numbers here. -/
def validateGate (g : Gate) (index : ℕ) : Except EncodeError Unit :=
  if g.opcode ∉ VALID_OPCODES then .error (.unknownOpcode index g.opcode)
  else [("target", g.target), ("ctrl_a", g.ctrlA), ("ctrl_b", g.ctrlB)].forM fun (name, value) =>
    if ¬ value ≤ U16_MAX then .error (.outOfRange index name value) else .ok ()

/-- One round of the loop of `serialise`. -/
def packGate (buf : List UInt8) (p : Gate × ℕ) : Except EncodeError (List UInt8) := do
  validateGate p.1 p.2
  return buf ++ encodeGate p.1

def serialise (gates : List Gate) : Except EncodeError (List UInt8) :=
  let nGates := gates.length
  if nGates > U32_MAX then .error (.tooManyGates nGates)
  else gates.zipIdx.foldlM packGate (MAGIC ++ bytes32 nGates)

section Encoder

variable {g : Gate} {gates : List Gate} {i : ℕ} {buf data : List UInt8}

theorem ite_error_eq_ok {p : Prop} [Decidable p] {e : EncodeError} {x : Except EncodeError Unit}
    {u : Unit} : (if p then .error e else x) = .ok u ↔ ¬ p ∧ x = .ok u := by
  by_cases h : p
  · simp [h]
  · simp [h]

/-- The validation passes exactly on the gates that fit a record. -/
theorem validateGate_eq_ok {u : Unit} : validateGate g i = .ok u ↔ g.Fits := by
  have hlt : ∀ v : ℕ, ¬ ¬ v ≤ U16_MAX ↔ v < 2 ^ 16 := by
    intro v
    unfold U16_MAX
    omega
  have hpure : (pure () : Except EncodeError Unit) = .ok u ↔ True := iff_of_true rfl trivial
  rw [validateGate, ite_error_eq_ok, not_not, mem_validOpcodes]
  simp only [List.forM_eq_forM, List.forM_cons, List.forM_nil, bind_eq_ok, ite_error_eq_ok, hlt,
    hpure]
  constructor
  · intro h
    obtain ⟨ho, _, ⟨ht, -⟩, _, ⟨ha, -⟩, _, ⟨hb, -⟩, -⟩ := h
    exact ⟨ho, ht, ha, hb⟩
  · intro h
    obtain ⟨ho, ht, ha, hb⟩ := h
    exact ⟨ho, (), ⟨ht, trivial⟩, (), ⟨ha, trivial⟩, (), ⟨hb, trivial⟩, trivial⟩

theorem packGate_eq_ok {out : List UInt8} :
    packGate buf (g, i) = .ok out ↔ g.Fits ∧ out = buf ++ encodeGate g := by
  rw [packGate, bind_eq_ok]
  constructor
  · intro h'
    obtain ⟨u, hv, h⟩ := h'
    exact ⟨validateGate_eq_ok.mp hv, (Except.ok.inj h).symm⟩
  · intro h'
    obtain ⟨hv, rfl⟩ := h'
    exact ⟨(), validateGate_eq_ok.mpr hv, rfl⟩

theorem foldlM_packGate {out : List UInt8} : ∀ {gates : List Gate} {i : ℕ} {buf : List UInt8},
    (gates.zipIdx i).foldlM packGate buf = .ok out ↔
      (∀ g ∈ gates, g.Fits) ∧ out = buf ++ gates.flatMap encodeGate
  | [], i, buf => by
      rw [List.flatMap_nil, List.append_nil]
      exact ⟨fun h => ⟨List.forall_mem_nil _, (Except.ok.inj h).symm⟩, fun h => congrArg _ h.2.symm⟩
  | g :: gates, i, buf => by
      rw [List.zipIdx_cons, List.foldlM_cons, bind_eq_ok, List.forall_mem_cons, List.flatMap_cons]
      constructor
      · intro h'
        obtain ⟨_, hp, h⟩ := h'
        obtain ⟨hg, rfl⟩ := packGate_eq_ok.mp hp
        obtain ⟨hall, rfl⟩ := foldlM_packGate.mp h
        exact ⟨⟨hg, hall⟩, List.append_assoc _ _ _⟩
      · intro h'
        obtain ⟨⟨hg, hall⟩, rfl⟩ := h'
        exact ⟨_, packGate_eq_ok.mpr ⟨hg, rfl⟩,
          foldlM_packGate.mpr ⟨hall, (List.append_assoc _ _ _).symm⟩⟩

/-- **The encoder** takes the lists the header can count whose gates fit a record. -/
theorem serialise_eq_ok : serialise gates = .ok data ↔
    (gates.length < 2 ^ 32 ∧ ∀ g ∈ gates, g.Fits) ∧ data = encode gates := by
  have hlt : gates.length > U32_MAX ↔ ¬ gates.length < 2 ^ 32 := by
    unfold U32_MAX
    omega
  unfold serialise
  by_cases hlen : gates.length < 2 ^ 32
  · rw [if_neg (by rw [hlt, not_not]; exact hlen), foldlM_packGate, and_iff_right hlen]
    rfl
  · rw [if_pos (hlt.mpr hlen)]
    exact iff_of_false (fun h => by cases h) fun h => hlen h.1.1

theorem deserialise_encode (hlen : gates.length < 2 ^ 32) (hf : ∀ g ∈ gates, g.Fits) :
    deserialise (encode gates) = .ok gates := by
  have hn := numGates_encode hlen
  have hg := gatesOf_encode hlen hf
  have hl : (encode gates).length = declaredLength (encode gates) := by
    rw [length_encode, declaredLength, hn]
  refine deserialise_eq_ok.mpr ⟨⟨⟨rfl, hl.ge⟩, hl⟩, fun i hi => padAt_encode (hn ▸ hi), ?_, hg.symm⟩
  rw [hg]
  exact fun g hm => (hf g hm).opcode

/-- **The codec is a bijection** between the lists it can hold and the strings it accepts. -/
theorem codec_bijective :
    (∀ gates : List Gate, gates.length ≤ 2 ^ 32 - 1 → (∀ g ∈ gates, g.Fits) →
      ∃ data, serialise gates = .ok data ∧ deserialise data = .ok gates) ∧
    (∀ data gates, deserialise data = .ok gates → serialise gates = .ok data) ∧
    (∀ data, (¬ ∃ gates, serialise gates = .ok data) → ∃ e, deserialise data = .error e) := by
  have hdec : ∀ data gates, deserialise data = .ok gates → serialise gates = .ok data := by
    intro data gates h
    obtain ⟨-, -, ho, hg⟩ := deserialise_eq_ok.mp h
    refine serialise_eq_ok.mpr ⟨⟨?_, fun g hm => ?_⟩, (encode_of_deserialise h).symm⟩
    · rw [hg, gatesOf, List.length_map, List.length_range]
      exact le32_lt data 4
    · rw [hg] at hm
      obtain ⟨i, -, rfl⟩ := mem_gatesOf.mp hm
      exact ⟨ho _ hm, le16_lt _ _, le16_lt _ _, le16_lt _ _⟩
  refine ⟨fun gates hlen hf => ?_, hdec, fun data hno => ?_⟩
  · have hlen' : gates.length < 2 ^ 32 := by omega
    exact ⟨encode gates, serialise_eq_ok.mpr ⟨⟨hlen', hf⟩, rfl⟩, deserialise_encode hlen' hf⟩
  · cases h : deserialise data with
    | error e => exact ⟨e, rfl⟩
    | ok gates => exact (hno ⟨gates, hdec data gates h⟩).elim

end Encoder

end GroverTax.Python
