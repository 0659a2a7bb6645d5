/-
  File:      GroverTax/Python/BuildComplete.lean
  Subject:   When `build_iadd_fixture`, src/python/grover_tax/iadd_fixture.py, returns a document on
             the text of an adder.

  * `matchesHex_hex`, `matchesHexPairs_hex` -- the digests and the states pass their patterns;
  * `schemaValid_iff` -- a document of an adder is valid exactly when its labels are;
  * **`build_iff_labels`** -- **the generator returns a document exactly when the labels it is given
    are valid**, whatever is drawn, and the oracle accepts it.
-/
import GroverTax.Python.BuildErrors

namespace GroverTax.Python

open GroverTax.Lib GroverTax.Gtv1

/-! ## 1. Hexadecimal texts -/

theorem isLowerHex_hexChar {d : ℕ} (h : d < 16) : isLowerHex (hexChar d) = true := by
  interval_cases d <;> decide

theorem length_hex (data : List UInt8) : (hex data).length = 2 * data.length := by
  induction data with
  | nil => rfl
  | cons b data ih =>
    have e : hex (b :: data) = hexChar (b.toNat / 16) :: hexChar (b.toNat % 16) :: hex data := rfl
    rw [e, List.length_cons, List.length_cons, ih, List.length_cons]
    omega

theorem isLowerHex_of_mem_hex {data : List UInt8} {c : Char} (h : c ∈ hex data) :
    isLowerHex c = true := by
  obtain ⟨b, -, hc⟩ := List.mem_flatMap.mp h
  have hb := b.toNat_lt
  rw [List.mem_cons, List.mem_singleton] at hc
  rcases hc with rfl | rfl
  · exact isLowerHex_hexChar (by omega)
  · exact isLowerHex_hexChar (by omega)

/-- A hexadecimal text has no newline to lose. -/
theorem chomp_hex (data : List UInt8) : chomp (hex data) = hex data := by
  refine if_neg fun h => ?_
  have := isLowerHex_of_mem_hex (List.mem_of_getLast? h)
  cases this

theorem matchesHex_hex {data : List UInt8} {n : ℕ} (h : 2 * data.length = n) :
    matchesHex n (hex data) = true := by
  rw [matchesHex, chomp_hex, length_hex, h, beq_self_eq_true, Bool.true_and, List.all_eq_true]
  exact fun c => isLowerHex_of_mem_hex

theorem matchesHexPairs_hex {data : List UInt8} (h : data ≠ []) :
    matchesHexPairs (hex data) = true := by
  have hlen := length_hex data
  have hpos := List.length_pos_iff.mpr h
  have hne : (hex data).isEmpty = false := by
    rw [List.isEmpty_eq_false_iff]
    rintro e
    rw [e, List.length_nil] at hlen
    omega
  rw [matchesHexPairs, chomp_hex, hne, hlen, Nat.mul_mod_right, beq_self_eq_true, Bool.not_false,
    Bool.true_and, Bool.true_and, List.all_eq_true]
  exact fun c => isLowerHex_of_mem_hex

/-- `_git_head_sha` passes its pattern, whatever `git` prints. -/
theorem matchesHex_gitHeadSha (git : Option (List Char)) :
    matchesHex 40 (gitHeadSha git) = true := by
  unfold gitHeadSha
  split
  · decide
  · split_ifs with h
    · exact h
    · decide

/-! ## 2. The schema on a document of an adder -/

/-- The digests have 32 bytes. -/
structure Hashlib.Sized (lib : Hashlib) : Prop where
  sha256 : ∀ data, (lib.sha256 data).length = 32
  blake2s : ∀ data, (lib.blake2s data).length = 32

/-- The labels of a document that the caller gives. -/
structure LabelsValid (tier circuitSource pinCommit : List Char) : Prop where
  tier : matchesTier tier = true
  circuitSource : circuitSource ∈ CIRCUIT_SOURCES
  pinCommit : matchesHex 40 pinCommit = true

section Build

variable {lib : Hashlib} {git : Option (List Char)} {messages : FixtureDocument → List String}
  {text tier circuitSource pinCommit : List Char} {base : KmxCircuit} {k n w : ℕ}
  {seed circuitBytes : List UInt8} {testCases : List FixtureCase} {hist : Histogram}

/-- **The schema only minds the labels**, on what the generator puts in a document. -/
theorem schemaValid_iff (hlib : lib.Sized) (hk : 1 ≤ k) (hn : 1 ≤ n) (hw : 1 ≤ w)
    (hlayout : registerLayout base ≠ []) (hqubits : 1 ≤ base.numQubits) (hgates : base.gates ≠ [])
    (hseed : seed.length = 32) (hbytes : circuitBytes ≠ []) (hcases : testCases ≠ [])
    (hstates : ∀ c ∈ testCases, ∃ s t : List UInt8, c.xHex = hex s ∧ c.yHex = hex t ∧ s ≠ [] ∧
      t ≠ []) :
    schemaValid (assemble lib git text base k n tier circuitSource pinCommit w seed testCases
      circuitBytes hist) = true ↔ LabelsValid tier circuitSource pinCommit := by
  have hsha : ∀ data, matchesHex 64 (hex (lib.sha256 data)) = true := fun data =>
    matchesHex_hex (by rw [hlib.sha256])
  have hblake : ∀ data, matchesHex 64 (hex (lib.blake2s data)) = true := fun data =>
    matchesHex_hex (by rw [hlib.blake2s])
  have hinstructions : 1 ≤ base.gates.length * k :=
    Nat.mul_pos (List.length_pos_iff.mpr hgates) hk
  have hall : (testCases.all fun c => matchesHexPairs c.xHex && matchesHexPairs c.yHex) = true := by
    refine List.all_eq_true.mpr fun c hc => ?_
    obtain ⟨s, t, hx, hy, hs, ht⟩ := hstates c hc
    rw [hx, hy, matchesHexPairs_hex hs, matchesHexPairs_hex ht, Bool.true_and]
  have hempty : testCases.isEmpty = false := List.isEmpty_eq_false_iff.mpr hcases
  have hnolayout : (registerLayout base).isEmpty = false := List.isEmpty_eq_false_iff.mpr hlayout
  simp only [schemaValid, assemble, matchesHex_gitHeadSha, kmxSourceSha256, hsha, hblake, hall,
    hempty, hnolayout, matchesHex_hex (show 2 * seed.length = 64 by rw [hseed]),
    matchesHexPairs_hex hbytes, BIT_STRIPE_WIDTH, CIRCUIT_SERIALISATION_FORMAT_VERSION,
    beq_self_eq_true, Bool.true_and, Bool.and_true, Bool.not_false, Bool.and_eq_true,
    List.contains_iff_mem, decide_eq_true_eq, hk, hn, hw, hqubits, hinstructions,
    show 1 ≤ 64 by omega, and_true]
  exact ⟨fun ⟨⟨h1, h2⟩, h3⟩ => ⟨h2, h3, h1⟩, fun h => ⟨⟨h.pinCommit, h.tier⟩, h.circuitSource⟩⟩

/-- **A case of an adder holds two states**, none of which is empty. -/
theorem states_of_fixtureCase (hparse : parseKmx text = .ok base) (hpair : DeclaresPair base w)
    (hqubits : 1 ≤ base.numQubits) {c : AdderCase} {fc : FixtureCase}
    (h : fixtureCase k (1 <<< w) (registerLayout base) (minStateBytes base) c = .ok fc) :
    ∃ s t : List UInt8, fc.xHex = hex s ∧ fc.yHex = hex t ∧ s ≠ [] ∧ t ≠ [] := by
  have hbytes := numQubits_le base
  obtain ⟨s, hs, hslen, -⟩ := exists_encodePair hparse hpair c.x c.y
  obtain ⟨t, ht, htlen, -⟩ := exists_encodePair hparse hpair ((c.x + k * c.y) % 2 ^ w) c.y
  obtain rfl := Except.ok.inj ((fixtureCase_eq hs ht).symm.trans h)
  exact ⟨s, t, rfl, rfl, List.length_pos_iff.mp (by omega), List.length_pos_iff.mp (by omega)⟩

/-- A register with a qubit. -/
theorem numQubits_pos (hparse : parseKmx text = .ok base) (hpair : DeclaresPair base w)
    (hw : 0 < w) : 1 ≤ base.numQubits := by
  obtain ⟨r0, -, hr0, -, hlen, -⟩ := hpair
  have hlt := (layoutFits_of_parseKmx hparse).lt _ (mem_of_lookup hr0) r0[0] (List.getElem_mem _)
  omega

theorem registerLayout_ne_nil (hpair : DeclaresPair base w) : registerLayout base ≠ [] := by
  obtain ⟨r0, -, hr0, -⟩ := hpair
  exact List.ne_nil_of_mem (mem_of_lookup hr0)

theorem length_seedBytes (hlib : lib.Sized) (h : seedBytes lib text k n = .ok seed) :
    seed.length = 32 := by
  obtain ⟨hash, -, h⟩ := bind_eq_ok.mp h
  obtain ⟨kBytes, -, h⟩ := bind_eq_ok.mp h
  obtain ⟨nBytes, -, h⟩ := bind_eq_ok.mp h
  obtain rfl := Except.ok.inj h
  exact hlib.sha256 _

/-! ## 3. The generator on an adder -/

/-- **On an adder the generator assembles one document**, which holds for the oracle, and returns it
    exactly when its labels are valid; the schema has the last word. -/
theorem build_iff_labels (hlib : lib.Sized) (git : Option (List Char))
    (messages : FixtureDocument → List String) (tier circuitSource pinCommit : List Char)
    (hparse : parseKmx text = .ok base) (hadd : IsAdder base w) (hw : 0 < w)
    (hgates : base.gates.length < 2 ^ 32) {K N : ℤ} (hK : 1 ≤ K ∧ K < 2 ^ 64)
    (hN : 1 ≤ N ∧ N < 2 ^ 64) : ∃ d,
      buildIaddFixture lib git messages text K N tier circuitSource pinCommit =
        (if schemaValid d then .ok d else .error (.schemaInvalid ((messages d).take 5))) ∧
      (schemaValid d = true ↔ LabelsValid tier circuitSource pinCommit) ∧
      verifyIaddFixture d.iaddFixture = .ok () := by
  have hpair := hadd.declaresPair
  have hne := gates_ne_nil hparse hadd hw
  have hqubits := numQubits_pos hparse hpair hw
  -- every step before the schema returns
  obtain ⟨seed, hseed⟩ := @exists_seedBytes K.toNat N.toNat lib text (by omega) (by omega)
  obtain ⟨c, hdrawn⟩ := @exists_firstCase lib.shake256 w hw seed
  obtain ⟨rest, -, hcases⟩ := hdrawn (N.toNat - 1)
  rw [show ((N.toNat - 1 + 1 : ℕ) : ℤ) = N by omega] at hcases
  obtain ⟨testCases, htests, -⟩ := exists_testCases hparse hpair K.toNat (c :: rest)
  have hall := forall_recorded hparse hadd (iaddTestCases_lt hcases).2 htests
  have hsim := simCrossValidate_of_recorded hne (by omega : 0 < K.toNat) hall
  obtain ⟨bytes, hbytes⟩ := (exists_serialise_iff hparse).mpr hgates
  obtain ⟨hist, hhist⟩ := exists_opcodeHistogram hparse
  have hbuild := @buildIaddFixture_eq lib git messages text tier circuitSource pinCommit K N base w
    seed testCases (c :: rest) hK.1 hN.1 hparse (adderRegisterWidth_eq hpair _) hseed hcases htests
  refine ⟨assemble lib git text base K.toNat N.toNat tier circuitSource pinCommit w seed testCases
    bytes hist, ?_, ?_, ?_⟩
  · rw [hbuild, bind_of_ok hsim, afterCheck, bind_of_ok (mapError_eq_ok.mpr hbytes),
      bind_of_ok hhist]
    rfl
  · obtain ⟨-, rfl⟩ := serialise_eq_ok.mp hbytes
    refine schemaValid_iff hlib (by omega) (by omega) hw (registerLayout_ne_nil hpair) hqubits hne
      (length_seedBytes hlib hseed) (List.cons_ne_nil _ _) ?_ fun fc hfc => ?_
    · rintro rfl
      rw [List.mapM_cons] at htests
      obtain ⟨fc, -, htests⟩ := bind_eq_ok.mp htests
      obtain ⟨tail, -, htests⟩ := bind_eq_ok.mp htests
      cases htests
    · obtain ⟨c', -, hc'⟩ := exists_of_mem_mapM_ok htests fc hfc
      exact states_of_fixtureCase hparse hpair hqubits hc'
  · obtain ⟨⟨hlen, hfit⟩, rfl⟩ := serialise_eq_ok.mp hbytes
    refine verifyIaddFixture_eq_ok.mpr ⟨_, _, fromHex_hex _, deserialise_encode hlen hfit,
      fun c' hc' => ?_⟩
    obtain ⟨fc, hfc, rfl⟩ := List.mem_map.mp hc'
    obtain ⟨s, t, hs, ht, hrun⟩ := (hall fc hfc).reads
    exact ⟨s, t, ⟨hs, ht⟩, hrun⟩

end Build

end GroverTax.Python
