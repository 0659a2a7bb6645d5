/-
  File:      GroverTax/Python/GenFixtures.lean
  Subject:   The generator of the v0.2 fixtures, `_build_fixture` of
             src/python/grover_tax/gen_fixtures.py, with the sampling of src/python/grover_tax/secp256k1.py.

  * `buildCircuit`, `sampleScalar`, `sampleEvenYPoint` -- what is drawn from the stream;
  * `At` -- where a reader stands in the stream of its seed;
  * `buildCircuit_spec` -- the gates, and the bytes of the stream they are read from.

  The libraries are parameters: the digests, and `publicKey`, the coordinates of
  `PrivateKey(scalar.to_bytes(32, "big")).public_key`. A raised exception is an error value; the
  loop of `_sample_scalar` runs for a given number of turns at most.
-/
import GroverTax.Python.IaddFixture
import GroverTax.Python.Secp256k1
import GroverTax.Python.Xof

namespace GroverTax.Python.GenFixtures

open GroverTax.Lib GroverTax.Gtv1

/-! ## 1. The source -/

def SEED : List UInt8 := "grover-tax-v0.2-2026".toList.flatMap String.utf8EncodeChar

def FIXTURE_VERSION : List Char := "v0.2".toList

def V02_N_SAMPLES : ℕ := 4

def V02_BIT_STRIPE_WIDTH : ℕ := 64

def V02_GATE_COUNT : ℕ := 1024

def UNUSED_CTRL : ℕ := 0xFFFF

def SECP256K1_ORDER : ℕ := 0xFFFFFFFFFFFFFFFFFFFFFFFFFFFFFFFEBAAEDCE6AF48A03BBFD25E8CD0364141

inductive GenError where
  | xof (e : CaseError)
  /-- IndexError of `xof.read(1)[0]` -/
  | index
  /-- OverflowError of `int.to_bytes` -/
  | point (e : PointError)
  | sim (e : SimError)
  | serialise (e : EncodeError)
  /-- the loop of `_sample_scalar` has not ended after the given number of turns -/
  | running
  deriving DecidableEq, Repr

structure FixtureDocument where
  version : List Char
  generatorCommit : List Char
  workloadPinCommit : List Char
  seedHex : List Char
  nSamples : ℕ
  bitStripeWidth : ℕ
  circuitSerialisationFormatVersion : ℕ
  circuitByteSerialisationHex : List Char
  circuitCommitmentSha256Hex : List Char
  circuitCommitmentBlake2sHex : List Char
  testCases : List IaddCase
  deriving DecidableEq, Repr

section Draw

variable (digest : List UInt8 → ℕ → List UInt8)

/-- `xof.read(1)[0]`. -/
def readByte (xof : XOF) : Except GenError (ℕ × XOF) := do
  let (bytes, xof) ← (xof.read digest 1).mapError .xof
  match bytes.head? with
  | some b => return (b.toNat, xof)
  | none => .error .index

/-- One turn of the loop of `_build_circuit`. -/
def drawGate (xof : XOF) : Except GenError (Gate × XOF) := do
  let (byte, xof) ← readByte digest xof
  let opcodeByte := byte &&& 0x3
  if opcodeByte = 0 then return (⟨OP_NOP, UNUSED_CTRL, UNUSED_CTRL, UNUSED_CTRL⟩, xof)
  else if opcodeByte = 1 then do
    let (t, xof) ← readByte digest xof
    return (⟨OP_NOT, t, UNUSED_CTRL, UNUSED_CTRL⟩, xof)
  else if opcodeByte = 2 then do
    let (t, xof) ← readByte digest xof
    let (a, xof) ← readByte digest xof
    return (⟨OP_CNOT, t, a, UNUSED_CTRL⟩, xof)
  else do
    let (t, xof) ← readByte digest xof
    let (a, xof) ← readByte digest xof
    let (b, xof) ← readByte digest xof
    return (⟨OP_TOFFOLI, t, a, b⟩, xof)

/-- `_build_circuit`. -/
def buildCircuit : ℕ → XOF → Except GenError (List Gate × XOF)
  | 0, xof => .ok ([], xof)
  | gateCount + 1, xof => do
      let (gate, xof) ← drawGate digest xof
      let (gates, xof) ← buildCircuit gateCount xof
      return (gate :: gates, xof)

/-- `_sample_scalar`. -/
def sampleScalar : ℕ → XOF → Except GenError (ℕ × XOF)
  | 0, _ => .error .running
  | fuel + 1, xof => do
      let (bytes, xof) ← (xof.read digest 32).mapError .xof
      let candidate := fromBytesBig bytes
      if 1 ≤ candidate ∧ candidate < SECP256K1_ORDER then return (candidate, xof)
      else sampleScalar fuel xof

/-- `Point.negated`. -/
def negated (p : Point) : Point := ⟨p.x, (SECP256K1_P - p.y) % SECP256K1_P⟩

/-- The point of a scalar, with even `y`. -/
def evenY (p : Point) : Point := if p.y &&& 1 = 1 then negated p else p

variable (publicKey : ℕ → Point)

/-- `_sample_even_y_point`. -/
def sampleEvenYPoint (fuel : ℕ) (xof : XOF) : Except GenError (Point × XOF) := do
  let (scalar, xof) ← sampleScalar digest fuel xof
  return (evenY (publicKey scalar), xof)

/-- `serialize_x`. -/
def serializeX (p q : Point) : Except GenError (List UInt8) := do
  let x ← (toBytes32Big p.x).mapError .point
  let y ← (toBytes32Big q.x).mapError .point
  return x ++ y

/-- One turn of the loop over the cases. -/
def genCase (circuit : List Gate) (fuel : ℕ) (xof : XOF) : Except GenError (IaddCase × XOF) := do
  let (p, xof) ← sampleEvenYPoint digest publicKey fuel xof
  let (q, xof) ← sampleEvenYPoint digest publicKey fuel xof
  let xBytes ← serializeX p q
  let yBytes ← (run circuit (xBytes.take 32)).mapError .sim
  return (⟨hex xBytes, hex yBytes⟩, xof)

def genCases (circuit : List Gate) (fuel : ℕ) : ℕ → XOF → Except GenError (List IaddCase × XOF)
  | 0, xof => .ok ([], xof)
  | n + 1, xof => do
      let (case, xof) ← genCase digest publicKey circuit fuel xof
      let (cases, xof) ← genCases circuit fuel n xof
      return (case :: cases, xof)

end Draw

/-- The document of a circuit and its cases. -/
def document (lib : Hashlib) (git : Option (List Char)) (upstreamCommit : List Char)
    (circuitBytes : List UInt8) (testCases : List IaddCase) : FixtureDocument where
  version := FIXTURE_VERSION
  generatorCommit := gitHeadSha git
  workloadPinCommit := upstreamCommit
  seedHex := hex (lib.sha256 SEED)
  nSamples := V02_N_SAMPLES
  bitStripeWidth := V02_BIT_STRIPE_WIDTH
  circuitSerialisationFormatVersion := CIRCUIT_SERIALISATION_FORMAT_VERSION
  circuitByteSerialisationHex := hex circuitBytes
  circuitCommitmentSha256Hex := hex (lib.sha256 circuitBytes)
  circuitCommitmentBlake2sHex := hex (lib.blake2s circuitBytes)
  testCases := testCases

/-- `_build_fixture`, from the commit that WORKLOAD.md pins. -/
def buildFixture (lib : Hashlib) (publicKey : ℕ → Point) (git : Option (List Char))
    (upstreamCommit : List Char) (fuel : ℕ) : Except GenError FixtureDocument := do
  let seedBytes := lib.sha256 SEED
  let (circuit, xof) ← buildCircuit lib.shake256 V02_GATE_COUNT { seed := seedBytes }
  let (testCases, _) ← genCases lib.shake256 publicKey circuit fuel V02_N_SAMPLES xof
  let circuitBytes ← (serialise circuit).mapError .serialise
  return document lib git upstreamCommit circuitBytes testCases

/-! ## 2. The stream -/

/-- The reader stands at `offset` of the stream of `seed`. -/
structure At (digest : List UInt8 → ℕ → List UInt8) (seed : List UInt8) (offset : ℕ) (xof : XOF) :
    Prop where
  buffered : xof.Buffered digest
  seed : xof.seed = seed
  offset : xof.offset = offset

section Stream

variable {digest : List UInt8 → ℕ → List UInt8} {seed : List UInt8} {o : ℕ} {xof : XOF}

/-- **A read** returns the next bytes, and the reader stands behind them. -/
theorem At.read (hx : IsXof digest) (h : At digest seed o xof) (n : ℕ) :
    ∃ xof', xof.read digest n = .ok ((digest seed (o + n)).drop o, xof') ∧
      At digest seed (o + n) xof' := by
  obtain ⟨hbuf, rfl, rfl⟩ := h
  obtain ⟨xof', hread, hbuf', hseed, hoff⟩ := XOF.read_stream hx hbuf n
  exact ⟨xof', hread, hbuf', hseed, hoff⟩

theorem at_start (hx : IsXof digest) (seed : List UInt8) : At digest seed 0 { seed := seed } :=
  ⟨(List.length_eq_zero_iff.mp (hx.length_digest seed 0)).symm, rfl, rfl⟩

/-- The bytes of the stream from one place to another. -/
def part (digest : List UInt8 → ℕ → List UInt8) (seed : List UInt8) (i j : ℕ) : List UInt8 :=
  (digest seed j).drop i

theorem length_part (hx : IsXof digest) (i n : ℕ) : (part digest seed i (i + n)).length = n := by
  rw [part, List.length_drop, hx.length_digest, Nat.add_sub_cancel_left]

theorem part_append (hx : IsXof digest) {i j k : ℕ} (hij : i ≤ j) (hjk : j ≤ k) :
    part digest seed i j ++ part digest seed j k = part digest seed i k :=
  hx.drop_append_drop seed hij hjk

/-- One byte. -/
theorem readByte_spec (hx : IsXof digest) (h : At digest seed o xof) :
    ∃ b xof', readByte digest xof = .ok (b.toNat, xof') ∧ At digest seed (o + 1) xof' ∧
      part digest seed o (o + 1) = [b] := by
  obtain ⟨xof', hread, hat⟩ := h.read hx 1
  obtain ⟨b, hb⟩ := List.length_eq_one_iff.mp (@length_part digest seed hx o 1)
  refine ⟨b, xof', ?_, hat, hb⟩
  refine bind_eq_ok.mpr ⟨_, mapError_eq_ok.mpr hread, ?_⟩
  dsimp only
  rw [← part, hb]
  rfl

end Stream

/-! ## 3. The circuit -/

/-- The gate is read off the bytes: the opcode from the last two bits of the first, then a byte for
    each slot the opcode uses. -/
structure Drawn (g : Gate) (bytes : List UInt8) : Prop where
  bytes : ∃ b : UInt8, b.toNat &&& 0x3 = g.opcode ∧ bytes = b :: g.used.map UInt8.ofNat
  inRange : g.InRange 256
  canonical : g.Canonical

section Circuit

variable {digest : List UInt8 → ℕ → List UInt8} {seed : List UInt8} {o : ℕ} {xof : XOF} {b : UInt8}

theorem drawn_nop (h : b.toNat &&& 0x3 = 0) :
    Drawn ⟨OP_NOP, UNUSED_CTRL, UNUSED_CTRL, UNUSED_CTRL⟩ [b] where
  bytes := ⟨b, h, rfl⟩
  inRange := Gate.inRange_nop rfl
  canonical := (Gate.canonical_nop rfl).mpr ⟨rfl, rfl, rfl⟩

theorem drawn_not (h : b.toNat &&& 0x3 = 1) (t : UInt8) :
    Drawn ⟨OP_NOT, t.toNat, UNUSED_CTRL, UNUSED_CTRL⟩ [b, t] where
  bytes := ⟨b, h, by simp [Gate.used, Gate.controls, OP_NOP, OP_NOT, OP_CNOT, OP_TOFFOLI]⟩
  inRange := (Gate.inRange_of_ne (show OP_NOT ≠ OP_NOP by decide)
    (show OP_NOT ≤ OP_TOFFOLI by decide)).mpr ⟨t.toNat_lt, by
    rw [Gate.controls_not rfl]
    exact List.forall_mem_nil _⟩
  canonical := (Gate.canonical_not rfl).mpr ⟨rfl, rfl⟩

theorem drawn_cnot (h : b.toNat &&& 0x3 = 2) (t a : UInt8) :
    Drawn ⟨OP_CNOT, t.toNat, a.toNat, UNUSED_CTRL⟩ [b, t, a] where
  bytes := ⟨b, h, by simp [Gate.used, Gate.controls, OP_NOP, OP_CNOT]⟩
  inRange := (Gate.inRange_of_ne (show OP_CNOT ≠ OP_NOP by decide)
    (show OP_CNOT ≤ OP_TOFFOLI by decide)).mpr ⟨t.toNat_lt, by
    rw [Gate.controls_cnot rfl]
    exact List.forall_mem_singleton.mpr a.toNat_lt⟩
  canonical := (Gate.canonical_cnot rfl).mpr rfl

theorem drawn_toffoli (h : b.toNat &&& 0x3 = 3) (t a c : UInt8) :
    Drawn ⟨OP_TOFFOLI, t.toNat, a.toNat, c.toNat⟩ [b, t, a, c] where
  bytes := ⟨b, h, by simp [Gate.used, Gate.controls, OP_NOP, OP_CNOT, OP_TOFFOLI]⟩
  inRange := (Gate.inRange_of_ne (show OP_TOFFOLI ≠ OP_NOP by decide) (Nat.le_refl _)).mpr ⟨t.toNat_lt, by
    rw [Gate.controls_toffoli rfl]
    exact List.forall_mem_cons.mpr ⟨a.toNat_lt, List.forall_mem_singleton.mpr c.toNat_lt⟩⟩
  canonical := Gate.canonical_toffoli rfl

/-- The next part of the stream, one byte longer. -/
theorem part_succ (hx : IsXof digest) {i : ℕ} {bytes : List UInt8} (hi : o ≤ i)
    (h : part digest seed o i = bytes) (hb : part digest seed i (i + 1) = [b]) :
    part digest seed o (i + 1) = bytes ++ [b] := by
  rw [← part_append hx hi (Nat.le_succ i), h, hb]

/-- **One gate**, and the bytes it is read from. -/
theorem drawGate_spec (hx : IsXof digest) (h : At digest seed o xof) :
    ∃ g n xof', drawGate digest xof = .ok (g, xof') ∧ At digest seed (o + n) xof' ∧
      Drawn g (part digest seed o (o + n)) := by
  obtain ⟨b, xof1, h1, hat1, hp1⟩ := readByte_spec hx h
  have hb : b.toNat &&& 0x3 = b.toNat % 4 := Nat.and_two_pow_sub_one_eq_mod b.toNat 2
  have hlt := Nat.mod_lt b.toNat (show 4 > 0 by decide)
  unfold drawGate
  by_cases h0 : b.toNat &&& 0x3 = 0
  · refine ⟨⟨OP_NOP, UNUSED_CTRL, UNUSED_CTRL, UNUSED_CTRL⟩, 1, xof1, bind_eq_ok.mpr
      ⟨_, h1, if_pos h0⟩, hat1, ?_⟩
    rw [hp1]
    exact drawn_nop h0
  obtain ⟨t, xof2, h2, hat2, hp2⟩ := readByte_spec hx hat1
  have hpart2 : part digest seed o (o + 2) = [b, t] := part_succ hx (by omega) hp1 hp2
  by_cases h1' : b.toNat &&& 0x3 = 1
  · refine ⟨⟨OP_NOT, t.toNat, UNUSED_CTRL, UNUSED_CTRL⟩, 2, xof2, bind_eq_ok.mpr ⟨_, h1, ?_⟩,
      hat2, ?_⟩
    · dsimp only
      rw [if_neg h0, if_pos h1']
      exact bind_eq_ok.mpr ⟨_, h2, rfl⟩
    · rw [hpart2]
      exact drawn_not h1' t
  obtain ⟨a, xof3, h3, hat3, hp3⟩ := readByte_spec hx hat2
  have hpart3 : part digest seed o (o + 3) = [b, t, a] := part_succ hx (by omega) hpart2 hp3
  by_cases h2' : b.toNat &&& 0x3 = 2
  · refine ⟨⟨OP_CNOT, t.toNat, a.toNat, UNUSED_CTRL⟩, 3, xof3, bind_eq_ok.mpr ⟨_, h1, ?_⟩,
      hat3, ?_⟩
    · dsimp only
      rw [if_neg h0, if_neg h1', if_pos h2']
      exact bind_eq_ok.mpr ⟨_, h2, bind_eq_ok.mpr ⟨_, h3, rfl⟩⟩
    · rw [hpart3]
      exact drawn_cnot h2' t a
  obtain ⟨c, xof4, h4, hat4, hp4⟩ := readByte_spec hx hat3
  have hpart4 : part digest seed o (o + 4) = [b, t, a, c] := part_succ hx (by omega) hpart3 hp4
  refine ⟨⟨OP_TOFFOLI, t.toNat, a.toNat, c.toNat⟩, 4, xof4, bind_eq_ok.mpr ⟨_, h1, ?_⟩, hat4, ?_⟩
  · dsimp only
    rw [if_neg h0, if_neg h1', if_neg h2']
    exact bind_eq_ok.mpr ⟨_, h2, bind_eq_ok.mpr ⟨_, h3, bind_eq_ok.mpr ⟨_, h4, rfl⟩⟩⟩
  · rw [hpart4]
    exact drawn_toffoli (by omega) t a c

/-- The gates are read off the bytes, one after the other. -/
def DrawnFrom (gates : List Gate) (bytes : List UInt8) : Prop :=
  ∃ chunks, List.Forall₂ Drawn gates chunks ∧ chunks.flatten = bytes

theorem DrawnFrom.forall {gates : List Gate} {bytes : List UInt8} (h : DrawnFrom gates bytes) :
    ∀ g ∈ gates, g.InRange 256 ∧ g.Canonical := by
  obtain ⟨chunks, hall, -⟩ := h
  intro g hg
  obtain ⟨chunk, -, hd⟩ := exists_of_forall₂_left hall g hg
  exact ⟨hd.inRange, hd.canonical⟩

/-- **The circuit** is read off the bytes the reader passes. -/
theorem buildCircuit_spec (hx : IsXof digest) : ∀ (gateCount : ℕ) {o : ℕ} {xof : XOF},
    At digest seed o xof → ∃ gates n xof', buildCircuit digest gateCount xof = .ok (gates, xof') ∧
      gates.length = gateCount ∧ At digest seed (o + n) xof' ∧
      DrawnFrom gates (part digest seed o (o + n))
  | 0, o, xof, h => by
      refine ⟨[], 0, xof, rfl, rfl, h, [], .nil, ?_⟩
      exact (List.drop_eq_nil_of_le (hx.length_digest _ _).le).symm
  | gateCount + 1, o, xof, h => by
      obtain ⟨g, n, xof1, h1, hat1, hg⟩ := drawGate_spec hx h
      obtain ⟨gates, m, xof2, h2, hlen, hat2, chunks, hall, hflat⟩ :=
        buildCircuit_spec hx gateCount hat1
      refine ⟨g :: gates, n + m, xof2, bind_eq_ok.mpr ⟨_, h1, bind_eq_ok.mpr ⟨_, h2, rfl⟩⟩,
        congrArg (· + 1) hlen, Nat.add_assoc o n m ▸ hat2, _, .cons hg hall, ?_⟩
      rw [List.flatten_cons, hflat, part_append hx (by omega) (by omega), Nat.add_assoc]

end Circuit

end GroverTax.Python.GenFixtures
