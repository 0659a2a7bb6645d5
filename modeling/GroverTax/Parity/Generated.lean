/-
  File:      GroverTax/Parity/Generated.lean
  Subject:   The programs that read a v0.2 fixture, on the documents of `_build_fixture`: the oracle
             `_verify_fixture` of src/python/grover_tax/sim_reference.py, the runner
             src/bin/apples-prove with the Cairo executable, and the prover, the guest and the
             verifier of SP1.

  * `verifyFixture` -- the oracle; `verifyFixture_eq_ok` -- when it accepts;
  * `applesInner` -- the array of the runner; `applesInner_eq` -- it has the documented layout;
  * `proveStdin_eq` -- what the SP1 guest is fed is what the Cairo executable is fed;
  * `Encodes` -- the 32 bytes of a coordinate stand for the point, its `y` being even;
  * **`generated_consumed`** -- **whatever the generator returns passes them all**.
-/
import GroverTax.NativeAir.Fixture
import GroverTax.Parity.Guests
import GroverTax.Parity.Prove
import GroverTax.Python.GenStream
import GroverTax.Sp1.Host

namespace GroverTax.Parity

open GroverTax.Lib GroverTax.Gtv1 GroverTax.Cairo
open GroverTax.Python (Hashlib IaddCase FixtureError SerialiseError SimError Point hex fromHex
  verifyIaddFixture mapError_eq_ok run_ok_iff decodeCompressed isOnCurve IsXof
  SECP256K1_P COMPRESSED_EVEN_Y_TAG)
open GroverTax.Python.GenFixtures (FixtureDocument OnCurve coordinate length_coordinate pointAt evenY
  document buildFixture)

/-! ## 1. The oracle -/

inductive OracleError where
  /-- what `_verify_iadd_fixture` raises -/
  | iadd (e : FixtureError)
  /-- ValueError of `bytes.fromhex` -/
  | notHex (text : List Char)
  | serialise (e : SerialiseError)
  | sim (e : SimError)
  /-- CROSS_VALIDATION_FAIL: test case {i}: run(C, x[:32]) = {y_got} != y = {y_expected} -/
  | crossValidationFail (i : ℕ) (yGot yExpected : List UInt8)
  deriving DecidableEq, Repr

def oracleHex (text : List Char) : Except OracleError (List UInt8) :=
  match fromHex text with
  | some bytes => .ok bytes
  | none => .error (.notHex text)

/-- One turn of the loop over the cases. -/
def verifyOne (circuit : List Gate) (p : IaddCase × ℕ) : Except OracleError Unit := do
  let xBytes ← oracleHex p.1.xHex
  let yExpected ← oracleHex p.1.yHex
  let yGot ← (Python.run circuit (xBytes.take 32)).mapError .sim
  if yGot ≠ yExpected then .error (.crossValidationFail p.2 yGot yExpected) else .ok ()

/-- `_verify_fixture`, on a document without `repetitions`. -/
def verifyFixture (fixture : FixtureDocument) : Except OracleError Unit :=
  if fixture.version = "v0.1".toList then .ok ()
  else if fixture.version = "v0.3-iadd".toList then
    (verifyIaddFixture ⟨fixture.circuitByteSerialisationHex, none, fixture.testCases⟩).mapError .iadd
  else do
    let bytes ← oracleHex fixture.circuitByteSerialisationHex
    let circuit ← (Python.deserialise bytes).mapError .serialise
    fixture.testCases.zipIdx.forM (verifyOne circuit)

section Oracle

variable {circuit : List Gate} {bytes : List UInt8} {text : List Char} {fixture : FixtureDocument}

theorem oracleHex_eq_ok : oracleHex text = .ok bytes ↔ fromHex text = some bytes := by
  unfold oracleHex
  cases fromHex text with
  | none => exact iff_of_false (fun h => by cases h) (fun h => by cases h)
  | some b => exact ⟨fun h => congrArg _ (Except.ok.inj h), fun h => congrArg _ (Option.some.inj h)⟩

theorem verifyOne_eq_ok (c : IaddCase) (i : ℕ) : verifyOne circuit (c, i) = .ok () ↔
    ∃ x y, c.Reads x y ∧ Python.run circuit (x.take 32) = .ok y := by
  unfold verifyOne
  simp only [bind_eq_ok, oracleHex_eq_ok, mapError_eq_ok, IaddCase.Reads]
  constructor
  · intro h
    obtain ⟨x, hx, y, hy, z, hz, h⟩ := h
    by_cases e : z = y
    · exact ⟨x, y, ⟨hx, hy⟩, e ▸ hz⟩
    · rw [if_pos e] at h
      cases h
  · intro h
    obtain ⟨x, y, ⟨hx, hy⟩, hz⟩ := h
    exact ⟨x, hx, y, hy, y, hz, if_neg (not_not.mpr rfl)⟩

/-- **When the oracle accepts** a document of this version. -/
theorem verifyFixture_eq_ok (hversion : fixture.version = Python.GenFixtures.FIXTURE_VERSION) :
    verifyFixture fixture = .ok () ↔
      ∃ bytes circuit, fromHex fixture.circuitByteSerialisationHex = some bytes ∧
        Python.deserialise bytes = .ok circuit ∧ ∀ c ∈ fixture.testCases, ∃ x y, c.Reads x y ∧
          Python.run circuit (x.take 32) = .ok y := by
  unfold verifyFixture
  rw [hversion, if_neg (by decide), if_neg (by decide)]
  simp only [bind_eq_ok, oracleHex_eq_ok, mapError_eq_ok, forM_zipIdx_eq_ok verifyOne_eq_ok]
  constructor
  · intro h
    obtain ⟨bytes, hb, circuit, hc, h⟩ := h
    exact ⟨bytes, circuit, hb, hc, h⟩
  · intro h
    obtain ⟨bytes, circuit, hb, hc, h⟩ := h
    exact ⟨bytes, hb, circuit, hc, h⟩

end Oracle

/-! ## 2. The runner -/

/-- One turn of the loop over the cases. -/
def applesCase (tc : IaddCase) : Except ProveError (List ℕ) := do
  let xBytes ← proveHex tc.xHex
  let yBytes ← proveHex tc.yHex
  return bytesInput (xBytes.take 32) ++ bytesInput (yBytes.take 32)

/-- `inner`: the array of the executable. -/
def applesInner (lib : Hashlib) (fix : FixtureDocument) : Except ProveError (List ℕ) := do
  let cb ← proveHex fix.circuitByteSerialisationHex
  let blake2sBytes := lib.blake2s cb
  let commHi := beNat (blake2sBytes.take 16)
  let commLo := beNat ((blake2sBytes.drop 16).take 16)
  let tcFelts ← fix.testCases.mapM applesCase
  return cb.length :: (bytesInput cb ++ [commLo, commHi, fix.testCases.length] ++ tcFelts.flatten)

/-- The case holds a state and what the circuit makes of it: the first 32 bytes of `x`, and `y`. -/
structure HoldsStates (circuit : List Gate) (tc : IaddCase) (p : List UInt8 × List UInt8) : Prop where
  x : ∃ more, tc.xHex = hex (p.1 ++ more)
  y : tc.yHex = hex p.2
  width : p.1.length = 32 ∧ p.2.length = 32
  inRange : ∀ g ∈ circuit, g.InRange 256
  output : wires p.2 = simulate circuit (wires p.1)

section Readers

variable {circuit : List Gate} {tc : IaddCase} {p : List UInt8 × List UInt8} {bytes : List UInt8}
  {tcs : List IaddCase} {cases : List (List UInt8 × List UInt8)}

theorem holds_of_records {P Q : Point} (h : Python.GenFixtures.Records circuit P Q tc) :
    ∃ p, HoldsStates circuit tc p := by
  obtain ⟨hx, y, hy, hrun⟩ := h
  obtain ⟨hr, hlen, hw⟩ := run_ok_iff.mp hrun
  rw [length_coordinate] at hr hlen
  exact ⟨(coordinate P.x, y), ⟨coordinate Q.x, hx⟩, hy, ⟨length_coordinate _, hlen⟩, hr, hw⟩

/-- The state is read, by whichever program. -/
theorem HoldsStates.reads (h : HoldsStates circuit tc p) :
    ∃ x, tc.Reads x p.2 ∧ x.take 32 = p.1 ∧ tc.xHex = hex x ∧ 32 ≤ x.length := by
  obtain ⟨more, hx⟩ := h.x
  refine ⟨p.1 ++ more, ⟨?_, ?_⟩, List.take_left' h.width.1, hx, ?_⟩
  · rw [hx, Python.fromHex_hex]
  · rw [h.y, Python.fromHex_hex]
  · rw [List.length_append, h.width.1]
    exact Nat.le_add_right _ _

theorem HoldsStates.run_eq (h : HoldsStates circuit tc p) : Python.run circuit p.1 = .ok p.2 := by
  refine run_ok_iff.mpr ⟨?_, h.width.2.trans h.width.1.symm, h.output⟩
  rw [h.width.1]
  exact h.inRange

theorem applesCase_eq (h : HoldsStates circuit tc p) : applesCase tc = .ok (encodeCase p) := by
  obtain ⟨x, -, htake, hx, -⟩ := h.reads
  unfold applesCase
  rw [hx, h.y, proveHex_hex, proveHex_hex]
  show Except.ok (bytesInput (x.take 32) ++ bytesInput (p.2.take 32)) = _
  rw [htake, List.take_of_length_le h.width.2.le]
  rfl

/-- **The runner writes the documented layout.** -/
theorem applesInner_eq {lib : Hashlib} (hblake : ∀ data, lib.blake2s data = Blake2s.digest data)
    {fix : FixtureDocument} (hbytes : fix.circuitByteSerialisationHex = hex bytes)
    (hcases : List.Forall₂ (HoldsStates circuit) fix.testCases cases) :
    applesInner lib fix = .ok (encodeInput bytes (commitmentOf bytes) [] cases) := by
  obtain ⟨hlo, hhi⟩ := beNat_halves (length_digest bytes)
  have hmap := mapM_of_forall₂ (fun tc p _ (h : HoldsStates circuit tc p) => applesCase_eq h) hcases
  unfold applesInner
  rw [hbytes, proveHex_hex]
  refine bind_eq_ok.mpr ⟨bytes, rfl, ?_⟩
  dsimp only
  rw [hblake, hlo, hhi, hmap, encodeInput, ← hcases.length_eq]
  refine congrArg Except.ok (congrArg (bytes.length :: ·) ?_)
  rw [List.append_assoc, ← List.flatMap_def]
  rfl

/-! ## 3. The prover of SP1 -/

/-- The document, as src/third_party/sp1/prover/prove.rs reads it. -/
def sp1Fixture (d : FixtureDocument) : Sp1.Fixture where
  circuitByteSerialisationHex := d.circuitByteSerialisationHex
  testCases := d.testCases.map fun tc => ⟨tc.xHex, tc.yHex⟩

/-- The document, as src/third_party/sp1/verifier/verifier.rs reads it. -/
def sp1VerifierFixture (d : FixtureDocument) : Sp1.VerifierFixture where
  circuitByteSerialisationHex := d.circuitByteSerialisationHex
  circuitCommitmentSha256Hex := d.circuitCommitmentSha256Hex
  nSamples := d.nSamples

theorem sp1HexDecode_hex (data : List UInt8) : Sp1.hexDecode (hex data) = some data := by
  rw [Sp1.hexDecode, NativeAir.hexDecode_hex, Option.map_some, List.map_map]
  simp [Function.comp_def]

theorem sp1ProveCase_eq (h : HoldsStates circuit tc p) : Sp1.proveCase ⟨tc.xHex, tc.yHex⟩ = .ok p := by
  obtain ⟨x, -, htake, hx, hlen⟩ := h.reads
  unfold Sp1.proveCase
  rw [hx, h.y, sp1HexDecode_hex, sp1HexDecode_hex]
  dsimp only
  rw [if_neg (by have := h.width.2; omega), htake, List.take_of_length_le h.width.2.le]

/-- **The guest is fed the circuit and the states**, those that the runner writes. -/
theorem proveStdin_eq {d : FixtureDocument} (hbytes : d.circuitByteSerialisationHex = hex bytes)
    (hcases : List.Forall₂ (HoldsStates circuit) d.testCases cases) :
    Sp1.proveStdin (sp1Fixture d) = .ok (bytes, cases) := by
  have hmap : (sp1Fixture d).testCases.mapM Sp1.proveCase = .ok (cases.map id) := by
    refine mapM_of_forall₂ (fun _ _ _ h => h) ?_
    exact List.forall₂_map_left_iff.mpr (hcases.imp fun _ _ h => sp1ProveCase_eq h)
  unfold Sp1.proveStdin
  rw [show (sp1Fixture d).circuitByteSerialisationHex = hex bytes from hbytes, sp1HexDecode_hex]
  dsimp only
  rw [hmap, List.map_id]
  rfl

end Readers

/-! ## 4. The points -/

/-- The coordinate stands for the point: it is what the compressed form decodes to. -/
def Encodes (p : Point) : Prop :=
  p.y % 2 = 0 ∧ isOnCurve p = true ∧
    decodeCompressed (COMPRESSED_EVEN_Y_TAG :: coordinate p.x) = .ok p

theorem encodes_evenY {p : Point} (hx : p.x < SECP256K1_P) (hy : p.y < SECP256K1_P)
    (hcurve : isOnCurve p = true) : Encodes (evenY p) := by
  obtain ⟨hlt, hcurve', heven⟩ := Python.GenFixtures.evenY_spec hy hcurve
  have hx' : (evenY p).x < SECP256K1_P := by rwa [Python.GenFixtures.evenY_x]
  obtain ⟨data, hdata, hdecode⟩ := Python.decodeCompressed_toCompressedBytes hx' hlt hcurve'
  rw [Python.toCompressedBytes_eq (hx'.trans Python.SECP256K1_P_lt)] at hdata
  obtain rfl := Except.ok.inj hdata
  have htag : Python.tagOf (evenY p).y = COMPRESSED_EVEN_Y_TAG :=
    if_pos ((Nat.and_one_is_mod _).trans heven)
  rw [htag] at hdecode
  exact ⟨heven, hcurve', hdecode⟩

/-! ## 5. Every generated document -/

/-- What the generator puts into a document: a circuit, its cases, and their states. -/
structure Generated (circuit : List Gate) (tcs : List IaddCase)
    (cases : List (List UInt8 × List UInt8)) : Prop where
  size : circuit.length < 2 ^ 29 - 1
  canonical : ∀ g ∈ circuit, g.InRange 256 ∧ g.Canonical
  holds : List.Forall₂ (HoldsStates circuit) tcs cases
  count : tcs.length = Python.GenFixtures.V02_N_SAMPLES
  points : ∀ c ∈ tcs, ∃ p q, Encodes p ∧ Encodes q ∧ c.xHex = hex (coordinate p.x ++ coordinate q.x)

section Consumers

variable {lib : Hashlib} {publicKey : ℕ → Point} {circuit : List Gate} {tcs : List IaddCase}
  {cases : List (List UInt8 × List UInt8)} {git : Option (List Char)} {upstreamCommit : List Char}

theorem Generated.fits (h : Generated circuit tcs cases) : ∀ g ∈ circuit, g.Fits :=
  fun g hg => Python.GenFixtures.fits_of_inRange (h.canonical g hg).1 (h.canonical g hg).2

theorem Generated.sized (h : Generated circuit tcs cases) : Sized cases := fun p hp => by
  obtain ⟨tc, -, hp⟩ := exists_of_forall₂_right h.holds p hp
  exact hp.width

theorem Generated.serialised (h : Generated circuit tcs cases) : Framed (encode circuit) ∧
    (encode circuit).length = declaredLength (encode circuit) ∧ PadsZero (encode circuit) ∧
      gatesOf (encode circuit) = circuit :=
  serialised_encode (h.size.trans (by decide)) h.fits

theorem Generated.length_cases (h : Generated circuit tcs cases) :
    cases.length = Python.GenFixtures.V02_N_SAMPLES := h.holds.length_eq.symm.trans h.count

/-- Both guests check the same of these bytes and states, and it holds. -/
theorem Generated.accepted (h : Generated circuit tcs cases) : Accepted (encode circuit) cases := by
  obtain ⟨hframed, -, -, hof⟩ := h.serialised
  refine ⟨hframed, ?_, fun p hp => ?_⟩
  · rw [hof]
    exact fun g hg => (h.canonical g hg).1
  · obtain ⟨tc, -, hp⟩ := exists_of_forall₂_right h.holds p hp
    rw [hof]
    exact hp.output

theorem Generated.ne_nil (h : Generated circuit tcs cases) : cases ≠ [] := by
  rintro rfl
  exact absurd h.length_cases (by decide)

theorem Generated.oracle (h : Generated circuit tcs cases) :
    verifyFixture (document lib git upstreamCommit (encode circuit) tcs) = .ok () := by
  refine (verifyFixture_eq_ok rfl).mpr ⟨encode circuit, circuit, Python.fromHex_hex _,
    Python.deserialise_encode (h.size.trans (by decide)) h.fits, fun c hc => ?_⟩
  obtain ⟨p, -, hp⟩ := exists_of_forall₂_left h.holds c hc
  obtain ⟨x, hreads, htake, -⟩ := hp.reads
  refine ⟨x, p.2, hreads, ?_⟩
  rw [htake]
  exact hp.run_eq

theorem Generated.apples (h : Generated circuit tcs cases)
    (hblake : ∀ data, lib.blake2s data = Blake2s.digest data) :
    ∃ input r, applesInner lib (document lib git upstreamCommit (encode circuit) tcs) = .ok input ∧
      applesToApplesExecutable input = some r := by
  obtain ⟨-, -, hpad, hof⟩ := h.serialised
  have hstrict : Strict (encode circuit) cases.length := by
    refine ⟨?_, ?_, hpad, ?_⟩
    · have hsize := h.size
      rw [length_encode, gateOff, HEADER_BYTES, GATE_BYTES]
      omega
    · rw [h.length_cases]
      decide
    · rw [hof]
      exact fun g hg => (h.canonical g hg).2
  obtain ⟨r, hr⟩ := (cairoCompletes_iff h.sized h.ne_nil).mpr ⟨h.accepted, hstrict⟩
  exact ⟨_, r, applesInner_eq hblake rfl h.holds, hr⟩

theorem Generated.sp1 (h : Generated circuit tcs cases)
    (hsha : ∀ data, (lib.sha256 data).length = 32) :
    ∃ stdin values,
      Sp1.proveStdin (sp1Fixture (document lib git upstreamCommit (encode circuit) tcs)) =
        .ok stdin ∧
      Sp1.main lib.sha256 stdin.1 stdin.2 = some values ∧
      Sp1.verify lib.sha256
        (sp1VerifierFixture (document lib git upstreamCommit (encode circuit) tcs)) (some values) =
          .ok () := by
  obtain ⟨-, hexact, -, -⟩ := h.serialised
  obtain ⟨values, hvalues⟩ :=
    (@sp1Completes_iff (encode circuit) cases lib.sha256 h.sized h.ne_nil).mpr ⟨h.accepted, hexact⟩
  refine ⟨(encode circuit, cases), values, proveStdin_eq rfl h.holds, hvalues,
    (Sp1.verify_eq_ok hsha).mpr ⟨encode circuit, sp1HexDecode_hex _, sp1HexDecode_hex _, ?_⟩⟩
  obtain ⟨-, -, rfl⟩ := Sp1.main_eq_some.mp hvalues
  rw [h.length_cases]
  rfl

/-- **What the generator returns.** -/
theorem exists_generated (hx : IsXof lib.shake256) (hkey : OnCurve publicKey)
    (git : Option (List Char)) (upstreamCommit : List Char) (fuel : ℕ) :
    buildFixture lib publicKey git upstreamCommit fuel = .error .running ∨
    ∃ circuit tcs cases, Generated circuit tcs cases ∧
      buildFixture lib publicKey git upstreamCommit fuel =
        .ok (document lib git upstreamCommit (encode circuit) tcs) := by
  obtain ⟨circuit, o, hlen, hdrawn, hfuel⟩ :=
    Python.GenFixtures.buildFixture_spec hx hkey git upstreamCommit
  rcases hfuel fuel with ⟨-, hrun⟩ | ⟨js, tcs, hjs, hrun, hcount, hall⟩
  · exact .inl hrun
  have hpoint : ∀ {i j : ℕ}, js[i]? = some j →
      Encodes (pointAt lib.shake256 (lib.sha256 Python.GenFixtures.SEED) o publicKey j) := by
    intro i j hij
    obtain ⟨hx, hy, hcurve⟩ := hkey _ (all_of_seekMany hjs j (List.mem_of_getElem? hij))
    exact encodes_evenY hx hy hcurve
  have hcase : ∀ c ∈ tcs, ∃ p q, Encodes p ∧ Encodes q ∧ Python.GenFixtures.Records circuit p q c := by
    intro c hc
    obtain ⟨k, hk⟩ := List.mem_iff_getElem?.mp hc
    obtain ⟨j1, j2, h1, h2, hrec⟩ := hall k c hk
    exact ⟨_, _, hpoint h1, hpoint h2, hrec⟩
  have hstates : ∀ c ∈ tcs, ∃ p, HoldsStates circuit c p := by
    intro c hc
    obtain ⟨p, q, -, -, hrec⟩ := hcase c hc
    exact holds_of_records hrec
  obtain ⟨cases, hcases⟩ := exists_forall₂ hstates
  refine .inr ⟨circuit, tcs, cases, ⟨?_, hdrawn.forall, hcases, hcount, fun c hc => ?_⟩, hrun⟩
  · rw [hlen]
    decide
  · obtain ⟨p, q, hp, hq, hrec⟩ := hcase c hc
    exact ⟨p, q, hp, hq, hrec.1⟩

/-- **Whatever the v0.2 generator returns passes every program that reads it**: the oracle accepts
    the document, the runner writes an array on which the Cairo executable completes, the guest
    completes on what the SP1 prover feeds it, and the verifier accepts what it commits. The halves
    of a case's `x` are two points of the curve. -/
theorem generated_consumed (lib : Hashlib) (hx : IsXof lib.shake256)
    (hblake : ∀ data, lib.blake2s data = Blake2s.digest data)
    (hsha : ∀ data, (lib.sha256 data).length = 32) (publicKey : ℕ → Point)
    (hkey : OnCurve publicKey) (git : Option (List Char)) (upstreamCommit : List Char) (fuel : ℕ) :
    buildFixture lib publicKey git upstreamCommit fuel = .error .running ∨
    ∃ d, buildFixture lib publicKey git upstreamCommit fuel = .ok d ∧
      verifyFixture d = .ok () ∧
      (∃ input r, applesInner lib d = .ok input ∧ applesToApplesExecutable input = some r) ∧
      (∃ stdin values, Sp1.proveStdin (sp1Fixture d) = .ok stdin ∧
        Sp1.main lib.sha256 stdin.1 stdin.2 = some values ∧
        Sp1.verify lib.sha256 (sp1VerifierFixture d) (some values) = .ok ()) ∧
      ∀ c ∈ d.testCases, ∃ p q, Encodes p ∧ Encodes q ∧
        c.xHex = hex (coordinate p.x ++ coordinate q.x) := by
  rcases exists_generated hx hkey git upstreamCommit fuel with hrun | ⟨circuit, tcs, cases, h, hrun⟩
  · exact .inl hrun
  · exact .inr ⟨_, hrun, h.oracle, h.apples hblake, h.sp1 hsha, h.points⟩

end Consumers

theorem length_sha256_genLib (data : List UInt8) :
    (Python.GenFixtures.genLib.sha256 data).length = 32 := by
  unfold Python.GenFixtures.genLib
  dsimp only
  split_ifs <;> exact List.length_reverse.trans (length_bytesLe _ _)

/-- The programs at SHAKE-256, BLAKE2s and the group of the curve, one look for each scalar. -/
theorem generated_consumed_v02 :
    buildFixture Python.GenFixtures.genLib Python.multiple none (List.replicate 40 '0') 1 =
      .error .running ∨
    ∃ d, buildFixture Python.GenFixtures.genLib Python.multiple none (List.replicate 40 '0') 1 =
        .ok d ∧
      verifyFixture d = .ok () ∧
      (∃ input r, applesInner Python.GenFixtures.genLib d = .ok input ∧
        applesToApplesExecutable input = some r) ∧
      (∃ stdin values, Sp1.proveStdin (sp1Fixture d) = .ok stdin ∧
        Sp1.main Python.GenFixtures.genLib.sha256 stdin.1 stdin.2 = some values ∧
        Sp1.verify Python.GenFixtures.genLib.sha256 (sp1VerifierFixture d) (some values) =
          .ok ()) ∧
      ∀ c ∈ d.testCases, ∃ p q, Encodes p ∧ Encodes q ∧
        c.xHex = hex (coordinate p.x ++ coordinate q.x) :=
  generated_consumed _ Python.isXof_shake256 (fun _ => rfl) length_sha256_genLib _
    Python.GenFixtures.onCurve_multiple none _ 1

end GroverTax.Parity
