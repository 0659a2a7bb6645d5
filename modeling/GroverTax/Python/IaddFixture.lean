/-
  File:      GroverTax/Python/IaddFixture.lean
  Subject:   src/python/grover_tax/iadd_fixture.py: `build_iadd_fixture` and what it calls.

  * `Hashlib` -- the three functions of `hashlib` the generator uses;
  * `FixtureDocument`, `schemaValid` -- the document, and what
    docs/spec/schemas/fixture-v0.3-iadd.schema.json asks of it beyond the types of its fields;
  * `buildIaddFixture` -- the generator on the text of the source circuit;
  * `buildIaddFixture_eq_ok` -- when it succeeds; `demanded_of_build` -- the bounds of its document.

  A raised exception is an error value, with the data its text prints. The messages of the schema
  library and the output of `git rev-parse HEAD` are parameters.
-/
import GroverTax.Python.Fixture
import GroverTax.Python.Registers
import Mathlib.Data.Char
import Mathlib.Data.List.Lex

namespace GroverTax.Python

open GroverTax.Lib GroverTax.Gtv1
open GroverTax.Kickmix (isAsciiDigit)

/-! ## 1. Constants and libraries -/

def SEED : List UInt8 := "grover-tax-v0.3-iadd-2026".toList.flatMap String.utf8EncodeChar

def FIXTURE_VERSION : List Char := "v0.3-iadd".toList

def CIRCUIT_SERIALISATION_FORMAT_VERSION : ℕ := 1

def BIT_STRIPE_WIDTH : ℕ := 64

def SIM_BUDGET_GATE_STEPS : ℕ := 25000000

/-- The digests of `hashlib`. -/
structure Hashlib where
  sha256 : List UInt8 → List UInt8
  blake2s : List UInt8 → List UInt8
  shake256 : List UInt8 → ℕ → List UInt8

/-- The bytes of the source, which `transpile_file` decodes as UTF-8. -/
def sourceBytes (text : List Char) : List UInt8 := text.flatMap String.utf8EncodeChar

/-- `kmx_source_sha256`. -/
def kmxSourceSha256 (lib : Hashlib) (text : List Char) : List Char :=
  hex (lib.sha256 (sourceBytes text))

/-! ## 2. The document -/

structure FixtureCase where
  r0In : ℕ
  r1In : ℕ
  xHex : List Char
  yHex : List Char
  deriving DecidableEq, Repr

structure FixtureDocument where
  version : List Char
  generatorCommit : List Char
  workloadPinCommit : List Char
  seedHex : List Char
  tier : List Char
  circuitSource : List Char
  kmxSourceSha256 : List Char
  repetitions : ℕ
  registerLayout : List (List Char × List ℕ)
  registerWidth : ℕ
  numQubits : ℕ
  nSamples : ℕ
  bitStripeWidth : ℕ
  circuitSerialisationFormatVersion : ℕ
  circuitByteSerialisationHex : List Char
  circuitCommitmentSha256Hex : List Char
  circuitCommitmentBlake2sHex : List Char
  demandedMaxQubitCount : ℕ
  demandedMaxNonCliffordCount : ℕ
  demandedMaxCircuitInstructions : ℕ
  demandedNumSamples : ℕ
  testCases : List FixtureCase
  deriving DecidableEq, Repr

/-- `$` also matches before a final newline. -/
def chomp (s : List Char) : List Char := if s.getLast? = some '\n' then s.dropLast else s

def isLowerHex (c : Char) : Bool := ('0' ≤ c && c ≤ '9') || ('a' ≤ c && c ≤ 'f')

/-- `^[0-9a-f]{n}$`. -/
def matchesHex (n : ℕ) (s : List Char) : Bool :=
  (chomp s).length == n && (chomp s).all isLowerHex

/-- `^([0-9a-f]{2})+$`. -/
def matchesHexPairs (s : List Char) : Bool :=
  !(chomp s).isEmpty && (chomp s).length % 2 == 0 && (chomp s).all isLowerHex

/-- `^T[0-9]+$`. -/
def matchesTier (s : List Char) : Bool :=
  match chomp s with
  | 'T' :: ds => !ds.isEmpty && ds.all isAsciiDigit
  | _ => false

/-- The circuits the schema names. -/
def CIRCUIT_SOURCES : List (List Char) :=
  ["iadd64.kmx".toList, "iadd8.kmx".toList, "iadd256.kmx".toList]

/-- The schema, on a document. -/
def schemaValid (d : FixtureDocument) : Bool :=
  d.version == FIXTURE_VERSION && matchesHex 40 d.generatorCommit &&
  matchesHex 40 d.workloadPinCommit && matchesHex 64 d.seedHex && matchesTier d.tier &&
  CIRCUIT_SOURCES.contains d.circuitSource && matchesHex 64 d.kmxSourceSha256 &&
  decide (1 ≤ d.repetitions) && !d.registerLayout.isEmpty && decide (1 ≤ d.registerWidth) &&
  decide (1 ≤ d.numQubits) && decide (1 ≤ d.nSamples) && decide (1 ≤ d.bitStripeWidth) &&
  d.circuitSerialisationFormatVersion == 1 && matchesHexPairs d.circuitByteSerialisationHex &&
  matchesHex 64 d.circuitCommitmentSha256Hex && matchesHex 64 d.circuitCommitmentBlake2sHex &&
  decide (1 ≤ d.demandedMaxQubitCount) && decide (1 ≤ d.demandedMaxCircuitInstructions) &&
  decide (1 ≤ d.demandedNumSamples) && !d.testCases.isEmpty &&
  d.testCases.all fun c => matchesHexPairs c.xHex && matchesHexPairs c.yHex

/-! ## 3. The generator -/

/-- The exceptions; those of the language have the name the language gives them. -/
inductive BuildError where
  /-- repetitions must be >= 1, got {repetitions} -/
  | repetitions (repetitions : ℤ)
  /-- n_samples must be >= 1, got {n_samples} -/
  | nSamples (nSamples : ℤ)
  | kmx (e : KmxError)
  /-- KMX_PARSE_ERROR: {circuit_source}: expected two registers r0,r1, got {sorted(layout)} -/
  | twoRegisters (circuitSource : List Char) (got : List (List Char))
  /-- KMX_PARSE_ERROR: {circuit_source}: register widths differ ({width} vs {len(layout['r1'])}) -/
  | widthsDiffer (circuitSource : List Char) (r0 r1 : ℕ)
  /-- ValueError of `bytes.fromhex` -/
  | fromHex (text : List Char)
  /-- OverflowError of `int.to_bytes` -/
  | overflow (n : ℕ)
  | cases (e : AdderCaseError)
  | registers (e : RegisterError)
  /-- ZeroDivisionError -/
  | zeroDivision
  | sim (e : SimError)
  /-- CROSS_VALIDATION_FAIL: test case {i}: simulated K={repetitions} output {state.hex()} -/
  | crossValidationFail (i repetitions : ℕ) (state : List UInt8) (expected : List Char)
  | serialise (e : EncodeError)
  /-- ValueError of `Opcode` -/
  | opcode (op : ℕ)
  /-- SCHEMA_INVALID: assembled v0.3-iadd fixture failed its schema: {joined} -/
  | schemaInvalid (messages : List String)
  deriving DecidableEq, Repr

/-- `_adder_register_width`. -/
def adderRegisterWidth (circuit : KmxCircuit) (circuitSource : List Char) : Except BuildError ℕ :=
  let layout := registerLayout circuit
  match layout.lookup ACC_REGISTER, layout.lookup OFFSET_REGISTER with
  | some r0, some r1 =>
      if r1.length ≠ r0.length then .error (.widthsDiffer circuitSource r0.length r1.length)
      else .ok r0.length
  | _, _ =>
      .error (.twoRegisters circuitSource ((layout.map Prod.fst).mergeSort fun a b => decide (a ≤ b)))

/-- `n.to_bytes(8, "little")`. -/
def toBytes8 (n : ℕ) : Except BuildError (List UInt8) :=
  if n < 2 ^ 64 then .ok (bytesLe 8 n) else .error (.overflow n)

def fromHexB (text : List Char) : Except BuildError (List UInt8) :=
  match fromHex text with
  | some bytes => .ok bytes
  | none => .error (.fromHex text)

/-- `seed_bytes`. -/
def seedBytes (lib : Hashlib) (text : List Char) (repetitions nSamples : ℕ) :
    Except BuildError (List UInt8) := do
  let hash ← fromHexB (kmxSourceSha256 lib text)
  let k ← toBytes8 repetitions
  let n ← toBytes8 nSamples
  return lib.sha256 (SEED ++ hash ++ k ++ n)

/-- One turn of the loop over the cases. -/
def fixtureCase (repetitions modulus : ℕ) (layout : List (List Char × List ℕ)) (numBytes : ℕ)
    (c : AdderCase) : Except BuildError FixtureCase := do
  let accOut := (c.x + repetitions * c.y) % modulus
  let xState ← (encodeRegisters [(ACC_REGISTER, c.x), (OFFSET_REGISTER, c.y)] layout
    numBytes).mapError .registers
  let yState ← (encodeRegisters [(ACC_REGISTER, accOut), (OFFSET_REGISTER, c.y)] layout
    numBytes).mapError .registers
  return ⟨c.x, c.y, hex xState, hex yState⟩

/-- One turn of the loop of `_sim_cross_validate`. -/
def replayCase (gates : List Gate) (repetitions : ℕ) (p : FixtureCase × ℕ) :
    Except BuildError Unit := do
  let state ← fromHexB p.1.xHex
  let state ← (runReps gates repetitions state).mapError .sim
  let expected ← fromHexB p.1.yHex
  if state ≠ expected then .error (.crossValidationFail p.2 repetitions state p.1.yHex) else .ok ()

/-- `_sim_cross_validate`. -/
def simCrossValidate (base : KmxCircuit) (testCases : List FixtureCase) (repetitions : ℕ) :
    Except BuildError Unit :=
  let stepsPerCase := base.gates.length * repetitions
  if stepsPerCase = 0 then .error .zeroDivision
  else
    let nValidate := min testCases.length (max 1 (SIM_BUDGET_GATE_STEPS / stepsPerCase))
    (testCases.take nValidate).zipIdx.forM (replayCase base.gates repetitions)

/-- The counts of `opcode_histogram`. -/
structure Histogram where
  nop : ℕ := 0
  not : ℕ := 0
  cnot : ℕ := 0
  toffoli : ℕ := 0
  deriving DecidableEq, Repr

/-- `counts[Opcode(g.opcode).name] += 1`. -/
def countOpcode (counts : Histogram) (g : Gate) : Except BuildError Histogram :=
  if g.opcode = OP_NOP then .ok { counts with nop := counts.nop + 1 }
  else if g.opcode = OP_NOT then .ok { counts with not := counts.not + 1 }
  else if g.opcode = OP_CNOT then .ok { counts with cnot := counts.cnot + 1 }
  else if g.opcode = OP_TOFFOLI then .ok { counts with toffoli := counts.toffoli + 1 }
  else .error (.opcode g.opcode)

def opcodeHistogram (gates : List Gate) : Except BuildError Histogram :=
  gates.foldlM countOpcode {}

/-- `_git_head_sha`, from what `git` prints when it succeeds. -/
def gitHeadSha (stdout : Option (List Char)) : List Char :=
  match stdout with
  | none => List.replicate 40 '0'
  | some out => if matchesHex 40 (strip out) then strip out else List.replicate 40 '0'

/-- The document of a circuit, when every step before it went well. -/
def assemble (lib : Hashlib) (git : Option (List Char)) (text : List Char) (base : KmxCircuit)
    (repetitions nSamples : ℕ) (tier circuitSource pinCommit : List Char) (registerWidth : ℕ)
    (seed : List UInt8) (testCases : List FixtureCase) (circuitBytes : List UInt8)
    (hist : Histogram) : FixtureDocument where
  version := FIXTURE_VERSION
  generatorCommit := gitHeadSha git
  workloadPinCommit := pinCommit
  seedHex := hex seed
  tier := tier
  circuitSource := circuitSource
  kmxSourceSha256 := kmxSourceSha256 lib text
  repetitions := repetitions
  registerLayout := registerLayout base
  registerWidth := registerWidth
  numQubits := base.numQubits
  nSamples := nSamples
  bitStripeWidth := BIT_STRIPE_WIDTH
  circuitSerialisationFormatVersion := CIRCUIT_SERIALISATION_FORMAT_VERSION
  circuitByteSerialisationHex := hex circuitBytes
  circuitCommitmentSha256Hex := hex (lib.sha256 circuitBytes)
  circuitCommitmentBlake2sHex := hex (lib.blake2s circuitBytes)
  demandedMaxQubitCount := base.numQubits
  demandedMaxNonCliffordCount := hist.toffoli * repetitions
  demandedMaxCircuitInstructions := base.gates.length * repetitions
  demandedNumSamples := nSamples
  testCases := testCases

/-- `build_iadd_fixture`, `text` being the file of the source circuit. -/
def buildIaddFixture (lib : Hashlib) (git : Option (List Char))
    (messages : FixtureDocument → List String) (text : List Char) (repetitions nSamples : ℤ)
    (tier circuitSource pinCommit : List Char) : Except BuildError FixtureDocument :=
  if repetitions < 1 then .error (.repetitions repetitions)
  else if nSamples < 1 then .error (.nSamples nSamples)
  else do
    let k := repetitions.toNat
    let n := nSamples.toNat
    let base ← (parseKmx text).mapError .kmx
    let registerWidth ← adderRegisterWidth base circuitSource
    let numBytes := minStateBytes base
    let layout := registerLayout base
    let seed ← seedBytes lib text k n
    let cases ← (iaddTestCases lib.shake256 registerWidth nSamples seed).mapError .cases
    let modulus := 1 <<< registerWidth
    let testCases ← cases.mapM (fixtureCase k modulus layout numBytes)
    simCrossValidate base testCases k
    let circuitBytes ← (serialise base.gates).mapError .serialise
    let hist ← opcodeHistogram base.gates
    let fixture := assemble lib git text base k n tier circuitSource pinCommit registerWidth seed
      testCases circuitBytes hist
    if schemaValid fixture then return fixture
    else .error (.schemaInvalid ((messages fixture).take 5))

/-! ## 4. What a document says of its circuit -/

section Built

variable {lib : Hashlib} {git : Option (List Char)} {messages : FixtureDocument → List String}
  {text tier circuitSource pinCommit : List Char} {repetitions nSamples : ℤ} {d : FixtureDocument}

/-- **When the generator succeeds**, and with which document. -/
theorem buildIaddFixture_eq_ok :
    buildIaddFixture lib git messages text repetitions nSamples tier circuitSource pinCommit =
      .ok d ↔ 1 ≤ repetitions ∧ 1 ≤ nSamples ∧ ∃ base, parseKmx text = .ok base ∧
        ∃ registerWidth, adderRegisterWidth base circuitSource = .ok registerWidth ∧
        ∃ seed, seedBytes lib text repetitions.toNat nSamples.toNat = .ok seed ∧
        ∃ cases, iaddTestCases lib.shake256 registerWidth nSamples seed = .ok cases ∧
        ∃ testCases, cases.mapM (fixtureCase repetitions.toNat (1 <<< registerWidth)
          (registerLayout base) (minStateBytes base)) = .ok testCases ∧
        simCrossValidate base testCases repetitions.toNat = .ok () ∧
        ∃ circuitBytes, serialise base.gates = .ok circuitBytes ∧
        ∃ hist, opcodeHistogram base.gates = .ok hist ∧
        schemaValid d = true ∧ d = assemble lib git text base repetitions.toNat nSamples.toNat tier
          circuitSource pinCommit registerWidth seed testCases circuitBytes hist := by
  unfold buildIaddFixture
  by_cases hk : repetitions < 1
  · rw [if_pos hk]
    exact iff_of_false (fun h => (nomatch h)) (fun h => absurd h.1 (by omega))
  by_cases hn : nSamples < 1
  · rw [if_neg hk, if_pos hn]
    exact iff_of_false (fun h => (nomatch h)) (fun h => absurd h.2.1 (by omega))
  rw [if_neg hk, if_neg hn]
  simp only [bind_eq_ok, mapError_eq_ok]
  constructor
  · intro h'
    obtain ⟨base, hbase, w, hw, seed, hseed, cs, hcs, ts, hts, ⟨⟩, hsim, bs, hbs, hist, hhist, h⟩ := h'
    split_ifs at h with hv
    · cases h
      exact ⟨by omega, by omega, base, hbase, w, hw, seed, hseed, cs, hcs, ts, hts, hsim, bs, hbs,
        hist, hhist, hv, rfl⟩
  · rintro ⟨-, -, base, hbase, w, hw, seed, hseed, cs, hcs, ts, hts, hsim, bs, hbs, hist, hhist, hv,
      rfl⟩
    exact ⟨base, hbase, w, hw, seed, hseed, cs, hcs, ts, hts, (), hsim, bs, hbs, hist, hhist,
      if_pos hv⟩

theorem foldlM_countOpcode {gates : List Gate} : ∀ {st hist : Histogram},
    gates.foldlM countOpcode st = .ok hist →
      hist.toffoli = st.toffoli + gates.countP (·.opcode = OP_TOFFOLI) := by
  induction gates with
  | nil =>
    rintro st _ ⟨⟩
    rfl
  | cons g gates ih =>
    intro st hist h
    rw [List.foldlM_cons, bind_eq_ok] at h
    obtain ⟨st1, h1, h⟩ := h
    rw [ih h, List.countP_cons]
    unfold countOpcode at h1
    split_ifs at h1 with h0 hx hcx hccx
    · cases h1
      simp [h0, OP_NOP, OP_TOFFOLI]
    · cases h1
      simp [hx, OP_NOT, OP_TOFFOLI]
    · cases h1
      simp [hcx, OP_CNOT, OP_TOFFOLI]
    · cases h1
      simp only [hccx, decide_true, if_true]
      omega

/-- **The bounds of a document**: its circuit's, the gate counts times the repetitions. -/
theorem demanded_of_build
    (h : buildIaddFixture lib git messages text repetitions nSamples tier circuitSource pinCommit =
      .ok d) : 1 ≤ repetitions ∧ 1 ≤ nSamples ∧ ∃ base, parseKmx text = .ok base ∧
        d.demandedNumSamples = nSamples.toNat ∧ d.demandedMaxQubitCount = base.numQubits ∧
        d.demandedMaxNonCliffordCount =
          base.gates.countP (·.opcode = OP_TOFFOLI) * repetitions.toNat ∧
        d.demandedMaxCircuitInstructions = base.gates.length * repetitions.toNat := by
  obtain ⟨hk, hn, base, hbase, w, -, seed, -, cs, -, ts, -, -, bs, -, hist, hhist, -, rfl⟩ :=
    buildIaddFixture_eq_ok.mp h
  refine ⟨hk, hn, base, hbase, rfl, rfl, ?_, rfl⟩
  have ht := foldlM_countOpcode hhist
  rw [show ({} : Histogram).toffoli = 0 from rfl, Nat.zero_add] at ht
  rw [← ht]
  rfl

end Built

end GroverTax.Python
