/-
  File:      GroverTax/Parity/Prove.lean
  Subject:   The runner of the v0.3-iadd fixtures, src/bin/iadd-prove: the array it hands to the Cairo
             executable, on the documents of `build_iadd_fixture`.

  * `proveInner` -- the array, from a document; `proveInner_eq` -- it has the documented layout;
  * `serialised_encode` -- the bytes of a parsed circuit pass every check of the executable;
  * **`built_executes_iff`** -- **the executable completes on a document exactly when the oracle
    accepts it** and the circuit and the counts fit the executable.

  The schema of the document is the generator's; the runner reads its fields.
-/
import GroverTax.Parity.Iadd
import GroverTax.Python.BuildComplete

namespace GroverTax.Parity

open GroverTax.Lib GroverTax.Gtv1 GroverTax.Cairo
open GroverTax.Python (FixtureDocument FixtureCase Hashlib KmxCircuit hex fromHex parseKmx
  buildIaddFixture verifyIaddFixture registerLayout minStateBytes DeclaresPair encodePair)

/-! ## 1. The runner -/

/-- What stops the runner; the exceptions of the language have the name the language gives them. -/
inductive ProveError where
  /-- FIXTURE.SCHEMA_INVALID: expected a v0.3-iadd fixture, got {version!r} -/
  | version (got : List Char)
  /-- ValueError of `bytes.fromhex` -/
  | fromHex (text : List Char)
  /-- AssertionError: fixture blake2s drift -/
  | blake2sDrift
  /-- IndexError of `test_cases[0]` -/
  | noCases
  /-- AssertionError: ragged test-case state widths -/
  | ragged
  deriving DecidableEq, Repr

def proveHex (text : List Char) : Except ProveError (List UInt8) :=
  match fromHex text with
  | some bytes => .ok bytes
  | none => .error (.fromHex text)

/-- One turn of the loop over the cases. -/
def proveCase (nSb : ℕ) (tc : FixtureCase) : Except ProveError (List ℕ) := do
  let xBytes ← proveHex tc.xHex
  let yBytes ← proveHex tc.yHex
  if xBytes.length = nSb ∧ yBytes.length = nSb then return bytesInput xBytes ++ bytesInput yBytes
  else .error .ragged

/-- `inner`: the array of the executable. -/
def proveInner (lib : Hashlib) (fix : FixtureDocument) : Except ProveError (List ℕ) :=
  if fix.version ≠ Python.FIXTURE_VERSION then .error (.version fix.version)
  else do
    let cb ← proveHex fix.circuitByteSerialisationHex
    let blake2sBytes := lib.blake2s cb
    if hex blake2sBytes ≠ fix.circuitCommitmentBlake2sHex then .error .blake2sDrift
    else
      let commHi := beNat (blake2sBytes.take 16)
      let commLo := beNat ((blake2sBytes.drop 16).take 16)
      match fix.testCases with
      | [] => .error .noCases
      | tc :: _ => do
          let nSb := tc.xHex.length / 2
          let tcFelts ← fix.testCases.mapM (proveCase nSb)
          return cb.length :: (bytesInput cb ++
            [commLo, commHi, fix.repetitions, nSb, fix.testCases.length] ++ tcFelts.flatten)

/-! ## 2. The layout -/

/-- The case holds these two states. -/
def Records (tc : FixtureCase) (p : List UInt8 × List UInt8) : Prop :=
  tc.xHex = hex p.1 ∧ tc.yHex = hex p.2

section Layout

variable {tc : FixtureCase} {p : List UInt8 × List UInt8} {nSb : ℕ}

theorem proveHex_hex (data : List UInt8) : proveHex (hex data) = .ok data := by
  unfold proveHex
  rw [Python.fromHex_hex]

theorem proveCase_eq (h : Records tc p) (hlen : p.1.length = nSb ∧ p.2.length = nSb) :
    proveCase nSb tc = .ok (encodeCase p) := by
  unfold proveCase
  rw [h.1, h.2, proveHex_hex, proveHex_hex]
  exact if_pos hlen

/-- The two halves of a digest, read from the most significant byte. -/
theorem beNat_halves {data : List UInt8} (h : data.length = 32) :
    beNat ((data.drop 16).take 16) = beNat data % 2 ^ 128 ∧
      beNat (data.take 16) = beNat data / 2 ^ 128 := by
  have hlow : (data.drop 16).take 16 = data.drop 16 :=
    List.take_of_length_le (by rw [List.length_drop, h])
  have hsplit : beNat data = beNat (data.take 16) * 2 ^ 128 + beNat (data.drop 16) := by
    have e := beNat_append (data.take 16) (data.drop 16)
    rwa [List.take_append_drop, List.length_drop, h, show (256 : ℕ) ^ (32 - 16) = 2 ^ 128 by
      norm_num] at e
  have hlt : beNat (data.drop 16) < 2 ^ 128 := by
    have e := beNat_lt (data.drop 16)
    rwa [List.length_drop, h, show (256 : ℕ) ^ (32 - 16) = 2 ^ 128 by norm_num] at e
  rw [hlow, hsplit, Nat.mul_add_mod_self_right, Nat.mod_eq_of_lt hlt, Nat.mul_comm,
    Nat.mul_add_div (Nat.two_pow_pos 128), Nat.div_eq_of_lt hlt]
  exact ⟨rfl, rfl⟩

/-- **The runner writes the documented layout**: on a document of hexadecimal texts, with its true
    commitment and states of one width. -/
theorem proveInner_eq {lib : Hashlib} (hblake : ∀ data, lib.blake2s data = Blake2s.digest data)
    {fix : FixtureDocument} {bytes : List UInt8} {cases : List (List UInt8 × List UInt8)}
    (hversion : fix.version = Python.FIXTURE_VERSION)
    (hbytes : fix.circuitByteSerialisationHex = hex bytes)
    (hcommitment : fix.circuitCommitmentBlake2sHex = hex (lib.blake2s bytes))
    (hcases : List.Forall₂ Records fix.testCases cases) (hne : cases ≠ [])
    (hlen : ∀ p ∈ cases, p.1.length = nSb ∧ p.2.length = nSb) :
    proveInner lib fix = .ok (encodeInput bytes (commitmentOf bytes) [fix.repetitions, nSb] cases) := by
  obtain ⟨hlo, hhi⟩ := beNat_halves (length_digest bytes)
  have hmap : fix.testCases.mapM (proveCase nSb) = .ok (cases.map encodeCase) :=
    mapM_of_forall₂ (fun _ p hp h => proveCase_eq h (hlen p hp)) hcases
  have hcount := hcases.length_eq
  unfold proveInner
  rw [if_neg (not_not.mpr hversion), hbytes, proveHex_hex]
  refine bind_eq_ok.mpr ⟨bytes, rfl, ?_⟩
  dsimp only
  rw [if_neg (not_not.mpr hcommitment.symm), hblake, hlo, hhi]
  rw [encodeInput, ← hcount]
  cases htcs : fix.testCases with
  | nil =>
    rw [htcs] at hcases
    exact absurd (List.forall₂_nil_left_iff.mp hcases) hne
  | cons tc tcs =>
    rw [htcs] at hcases hmap
    obtain ⟨p, rest, hp, -, rfl⟩ := List.forall₂_cons_left_iff.mp hcases
    have hwidth : tc.xHex.length / 2 = nSb := by
      rw [hp.1, Python.length_hex, (hlen p List.mem_cons_self).1]
      exact Nat.mul_div_cancel_left _ Nat.two_pos
    dsimp only
    rw [hwidth, hmap]
    refine congrArg Except.ok (congrArg (bytes.length :: ·) ?_)
    rw [List.append_assoc, ← List.flatMap_def]
    rfl

end Layout

/-! ## 3. The documents of the generator -/

section Built

variable {lib : Hashlib} {git : Option (List Char)} {messages : FixtureDocument → List String}
  {text tier circuitSource pinCommit : List Char} {K N : ℤ} {d : FixtureDocument}
  {base : KmxCircuit} {gates : List Gate} {nSb w : ℕ}

/-- The width that the generator finds is that of two registers. -/
theorem declaresPair_of_width (h : Python.adderRegisterWidth base circuitSource = .ok w) :
    DeclaresPair base w := by
  unfold Python.adderRegisterWidth at h
  dsimp only at h
  split at h
  · rename_i r0 r1 hr0 hr1
    split_ifs at h with hlen
    obtain rfl := Except.ok.inj h
    exact ⟨r0, r1, hr0, hr1, rfl, not_not.mp hlen⟩
  · cases h

/-- **The bytes of a circuit that fits its records**: the frame, the padding and the gates. -/
theorem serialised_encode (hlen : gates.length < 2 ^ 32) (hfit : ∀ g ∈ gates, g.Fits) :
    Framed (encode gates) ∧ (encode gates).length = declaredLength (encode gates) ∧
      PadsZero (encode gates) ∧ gatesOf (encode gates) = gates := by
  obtain ⟨⟨hframed, hexact⟩, hpad, -, hgates⟩ :=
    Python.deserialise_eq_ok.mp (Python.deserialise_encode hlen hfit)
  exact ⟨hframed, hexact, hpad, hgates.symm⟩

/-- The executable and the oracle on the bytes of a circuit over `8 * nSb` wires. -/
theorem executes_iff_outputs (hlen : gates.length < 2 ^ 32) (hfit : ∀ g ∈ gates, g.Fits)
    (hgates : ∀ g ∈ gates, g.InRange (8 * nSb) ∧ g.Canonical) {k : ℕ} (hk : 1 ≤ k)
    {f : Python.IaddFixture} {cases : List (List UInt8 × List UInt8)}
    (hf : Denotes f (encode gates) k cases) (hne : cases ≠ [])
    (hs : ∀ p ∈ cases, p.1.length = nSb ∧ p.2.length = nSb) :
    (∃ r, iaddExecutable (encodeInput (encode gates) (commitmentOf (encode gates)) [k, nSb] cases) =
      some r) ↔ verifyIaddFixture f = .ok () ∧ gates.length < 2 ^ 29 - 1 ∧ k < 2 ^ 32 ∧ nSb ≤ 64 ∧
        cases.length < 2 ^ 32 := by
  obtain ⟨hframed, hexact, hpad, hof⟩ := serialised_encode hlen hfit
  have hbytes : (encode gates).length < 2 ^ 32 ↔ gates.length < 2 ^ 29 - 1 := by
    rw [length_encode, gateOff, HEADER_BYTES, GATE_BYTES]
    omega
  rw [iadd_isSome hs, verify_iff_accepted hf hk hne hs, hbytes, hof]
  constructor
  · intro h
    obtain ⟨⟨hsize, -, -⟩, ⟨⟨-, hk32⟩, hsb, hcount⟩, -, houtputs⟩ := h
    refine ⟨⟨hframed, hexact, hpad, ?_, ?_⟩, hsize, hk32, hsb, hcount⟩
    · rw [hof]
      exact fun g hg => (hgates g hg).1
    · rwa [hof]
  · intro h
    obtain ⟨haccepted, hsize, hk32, hsb, hcount⟩ := h
    have houtputs := haccepted.outputs
    rw [hof] at houtputs
    have hbits : 8 * nSb ≤ BITS_PER_VALUE_512 := by
      unfold BITS_PER_VALUE_512
      omega
    exact ⟨⟨hsize, hframed, hpad⟩, ⟨⟨hk, hk32⟩, hsb, hcount⟩,
      fun g hg => ⟨(hgates g hg).1.mono hbits, (hgates g hg).2⟩, houtputs⟩

/-- What the generator puts in a document, for the runner and for the oracle. -/
structure Written (lib : Hashlib) (base : KmxCircuit) (k n : ℕ) (d : FixtureDocument)
    (cases : List (List UInt8 × List UInt8)) : Prop where
  version : d.version = Python.FIXTURE_VERSION
  circuit : d.circuitByteSerialisationHex = hex (encode base.gates)
  commitment : d.circuitCommitmentBlake2sHex = hex (lib.blake2s (encode base.gates))
  repetitions : d.repetitions = k
  records : List.Forall₂ Records d.testCases cases
  count : cases.length = n
  width : ∀ p ∈ cases, p.1.length = minStateBytes base ∧ p.2.length = minStateBytes base
  gates : base.gates.length < 2 ^ 32

/-- **What every document of the generator holds.** -/
theorem written_of_build (h : buildIaddFixture lib git messages text K N tier circuitSource
    pinCommit = .ok d) : 1 ≤ K ∧ 1 ≤ N ∧ ∃ base cases, parseKmx text = .ok base ∧
      Written lib base K.toNat N.toNat d cases := by
  obtain ⟨hK, hN, base, hbase, w, hwidth, seed, hseed, cs, hcs, tcs, htcs, -, bytes, hbytes, hist, -,
    -, rfl⟩ := Python.buildIaddFixture_eq_ok.mp h
  obtain ⟨hw, -⟩ := Python.iaddTestCases_lt hcs
  have hpair := declaresPair_of_width hwidth
  -- as many cases as are asked for
  obtain ⟨c, hdrawn⟩ := @Python.exists_firstCase lib.shake256 w hw seed
  obtain ⟨rest, hlen, hrest⟩ := hdrawn (N.toNat - 1)
  rw [show ((N.toNat - 1 + 1 : ℕ) : ℤ) = N by omega] at hrest
  obtain rfl := Except.ok.inj (hcs.symm.trans hrest)
  -- each holds two states of the circuit
  have hstates : ∀ fc ∈ tcs, ∃ p, Records fc p ∧
      p.1.length = minStateBytes base ∧ p.2.length = minStateBytes base := by
    intro fc hfc
    obtain ⟨a, -, ha⟩ := exists_of_mem_mapM_ok htcs fc hfc
    obtain ⟨s, hs, hslen, -⟩ := Python.exists_encodePair hbase hpair a.x a.y
    obtain ⟨t, ht, htlen, -⟩ := Python.exists_encodePair hbase hpair
      ((a.x + K.toNat * a.y) % 2 ^ w) a.y
    obtain rfl := Except.ok.inj ((Python.fixtureCase_eq hs ht).symm.trans ha)
    exact ⟨(s, t), ⟨rfl, rfl⟩, hslen, htlen⟩
  obtain ⟨cases, hall⟩ := exists_forall₂ hstates
  obtain ⟨⟨hgates, -⟩, rfl⟩ := Python.serialise_eq_ok.mp hbytes
  refine ⟨hK, hN, base, cases, hbase, rfl, rfl, rfl, rfl, hall.imp fun _ _ h => h.1, ?_,
    fun p hp => ?_, hgates⟩
  · rw [← hall.length_eq, length_of_mapM_ok htcs, List.length_cons, hlen]
    omega
  · obtain ⟨fc, -, hfc⟩ := exists_of_forall₂_right hall p hp
    exact hfc.2

theorem denotes_of_written {k n : ℕ} {cases : List (List UInt8 × List UInt8)}
    (h : Written lib base k n d cases) :
    Denotes d.iaddFixture (encode base.gates) k cases where
  circuit := by
    show fromHex d.circuitByteSerialisationHex = _
    rw [h.circuit, Python.fromHex_hex]
  repetitions := by
    show some (d.repetitions : ℤ) = _
    rw [h.repetitions]
  cases := by
    show List.Forall₂ _ (d.testCases.map _) _
    rw [List.forall₂_map_left_iff]
    exact h.records.imp fun c p hc => ⟨hc.1 ▸ Python.fromHex_hex p.1, hc.2 ▸ Python.fromHex_hex p.2⟩

/-- What the executable asks of a circuit and of the counts. -/
structure FitsExecutable (base : KmxCircuit) (k n : ℕ) : Prop where
  gates : base.gates.length < 2 ^ 29 - 1
  repetitions : k < 2 ^ 32
  numQubits : base.numQubits ≤ BITS_PER_VALUE_512
  cases : n < 2 ^ 32

/-- The runner and the executable on such a document. -/
theorem Written.executes {k n : ℕ} {cases : List (List UInt8 × List UInt8)}
    (hblake : ∀ data, lib.blake2s data = Blake2s.digest data) (hparse : parseKmx text = .ok base)
    (hw : Written lib base k n d cases) (hk : 1 ≤ k) (hn : 1 ≤ n) :
    ∃ input, proveInner lib d = .ok input ∧ ((∃ r, iaddExecutable input = some r) ↔
      verifyIaddFixture d.iaddFixture = .ok () ∧ FitsExecutable base k n) := by
  have hne : cases ≠ [] := by
    rintro rfl
    exact absurd (hw.count.symm.le.trans_eq List.length_nil) (by omega)
  have hgates : ∀ g ∈ base.gates, g.InRange (8 * minStateBytes base) ∧ g.Canonical := fun g hg => by
    obtain ⟨-, item, -, -, hgate, -⟩ := Python.exists_item hparse hg
    exact ⟨(Python.inRange_of_parseKmx hparse g hg).mono (Python.numQubits_le base),
      (Python.item_unused hgate).2⟩
  have hsize : minStateBytes base ≤ 64 ↔ base.numQubits ≤ BITS_PER_VALUE_512 := by
    unfold minStateBytes BITS_PER_VALUE_512
    omega
  refine ⟨_, proveInner_eq hblake hw.version hw.circuit hw.commitment hw.records hne hw.width, ?_⟩
  rw [hw.repetitions, executes_iff_outputs hw.gates (Python.fits_of_parseKmx hparse) hgates hk
    (denotes_of_written hw) hne hw.width, hw.count, hsize]
  refine and_congr_right fun _ => ⟨fun h => ?_, fun h => ?_⟩
  · obtain ⟨h1, h2, h3, h4⟩ := h
    exact ⟨h1, h2, h3, h4⟩
  · exact ⟨h.gates, h.repetitions, h.numQubits, h.cases⟩

/-- **The runner and the executable on the documents of the generator**: the runner always writes
    its input, and the executable completes on it exactly when the oracle accepts the document and
    the circuit and the counts fit. -/
theorem built_executes_iff (hblake : ∀ data, lib.blake2s data = Blake2s.digest data)
    (h : buildIaddFixture lib git messages text K N tier circuitSource pinCommit = .ok d) :
    ∃ base input, parseKmx text = .ok base ∧ proveInner lib d = .ok input ∧
      ((∃ r, iaddExecutable input = some r) ↔
        verifyIaddFixture d.iaddFixture = .ok () ∧ FitsExecutable base K.toNat N.toNat) := by
  obtain ⟨hK, hN, base, cases, hparse, hw⟩ := written_of_build h
  obtain ⟨input, hinput, hiff⟩ := hw.executes hblake hparse (by omega) (by omega)
  exact ⟨base, input, hparse, hinput, hiff⟩

end Built

/-- The values of `hashlib` on the adder of one bit, with BLAKE2s itself. -/
def blakeLib : Hashlib := { Python.adderLib with blake2s := Blake2s.digest }

theorem sized_blakeLib : blakeLib.Sized where
  sha256 data := by
    unfold blakeLib Python.adderLib
    dsimp only
    split_ifs <;> decide
  blake2s := length_digest

/-- Three repetitions of the adder of one bit, on one sample. -/
theorem built_executes_iff_thrice : ∃ d, buildIaddFixture blakeLib none (fun _ => [])
      Python.adderText 3 1 ['T', '0'] "iadd8.kmx".toList (List.replicate 40 '0') = .ok d ∧
    ∃ base input, parseKmx Python.adderText = .ok base ∧ proveInner blakeLib d = .ok input ∧
      ((∃ r, iaddExecutable input = some r) ↔
        verifyIaddFixture d.iaddFixture = .ok () ∧ FitsExecutable base 3 1) := by
  obtain ⟨base, hparse, hadd⟩ := Python.isAdder_adderText
  have hone : (parseKmx Python.adderText).map (·.gates.length) = .ok 1 := by decide +kernel
  have hgates : base.gates.length < 2 ^ 32 := by
    rw [hparse] at hone
    have hlen : base.gates.length = 1 := Except.ok.inj hone
    omega
  obtain ⟨d, hd, hvalid, -⟩ := Python.build_iff_labels sized_blakeLib none (fun _ => []) ['T', '0']
    "iadd8.kmx".toList (List.replicate 40 '0') hparse hadd Nat.one_pos hgates (K := 3) (N := 1)
    (by decide) (by decide)
  rw [if_pos (hvalid.mpr ⟨by decide, by decide, by decide⟩)] at hd
  exact ⟨d, hd, built_executes_iff (fun _ => rfl) hd⟩

end GroverTax.Parity
