/-
  File:      GroverTax/Parity/WorkloadFixture.lean
  Subject:   The fixture of the workload: `build_iadd_fixture` of src/python/grover_tax/iadd_fixture.py
             on the text of iadd8.kmx, iadd64.kmx or iadd256.kmx, for any number of repetitions and of
             samples.

  * `cases_of_build` -- what the document records of each case;
  * **`workload_fixture`** -- **the document exists exactly when its labels are valid**, its cases are
    `k` additions, its bounds are those of the family, and the oracle accepts it.
-/
import GroverTax.Parity.Workload
import GroverTax.Python.BuildComplete

namespace GroverTax.Parity

open GroverTax.Lib GroverTax.Gtv1
open GroverTax.Python

section Fixture

variable {lib : Hashlib} {git : Option (List Char)} {messages : FixtureDocument → List String}
  {tier circuitSource pinCommit text : List Char} {n : ℕ} {K N : ℤ} {d : FixtureDocument}

/-- A case of the document: the states of its operands and of their sum. -/
def CaseOf (n k : ℕ) (c : FixtureCase) : Prop :=
  c.r0In < 2 ^ n ∧ c.r1In < 2 ^ n ∧ ∃ s t : List UInt8, c.xHex = hex s ∧ c.yHex = hex t ∧
    s.length = (2 * n + 7) / 8 ∧ t.length = (2 * n + 7) / 8 ∧ wires s = pair n c.r0In c.r1In ∧
    wires t = pair n (c.r0In + k * c.r1In) c.r1In

theorem minStateBytes_iadd (hn : 3 ≤ n) (hmax : n ≤ 2 ^ 15) (k : ℕ) :
    minStateBytes (circuitOf (iaddItems n k)) = (2 * n + 7) / 8 := by
  rw [minStateBytes, numQubits_iaddItems hn hmax]
  omega

theorem gates_circuitOf_iadd (hn : 3 ≤ n) (hmax : n ≤ 2 ^ 15) :
    (circuitOf (iaddItems n 1)).gates = iadd n := by
  rw [circuitOf_eq]
  dsimp only
  rw [gates_iaddItems hn hmax, iaddGates, List.replicate_one, List.flatten_singleton]

/-- **A recorded case holds the two operands and their sum.** -/
theorem caseOf_fixtureCase (hn : 3 ≤ n) (hmax : n ≤ 2 ^ 15) {k : ℕ} {c : AdderCase}
    {fc : FixtureCase} (hc : c.x < 2 ^ n ∧ c.y < 2 ^ n)
    (h : fixtureCase k (1 <<< n) (registerLayout (circuitOf (iaddItems n 1)))
      (minStateBytes (circuitOf (iaddItems n 1))) c = .ok fc) : CaseOf n k fc := by
  obtain ⟨s, hs, h⟩ := bind_eq_ok.mp h
  obtain ⟨t, ht, h⟩ := bind_eq_ok.mp h
  obtain rfl := Except.ok.inj h
  obtain ⟨hslen, hsw⟩ := wires_encodePair hn hmax (mapError_eq_ok.mp hs)
  obtain ⟨htlen, htw⟩ := wires_encodePair hn hmax (mapError_eq_ok.mp ht)
  rw [minStateBytes_iadd hn hmax] at hslen htlen
  rw [Nat.one_shiftLeft, pair_mod] at htw
  exact ⟨hc.1, hc.2, s, t, rfl, rfl, hslen, htlen, hsw, htw⟩

/-- What the document records of its cases: as many as are asked for. -/
theorem cases_of_build (hn : 3 ≤ n) (hmax : n ≤ 2 ^ 15)
    (hparse : parseKmx text = .ok (circuitOf (iaddItems n 1)))
    (h : buildIaddFixture lib git messages text K N tier circuitSource pinCommit = .ok d) :
    d.registerWidth = n ∧ d.testCases.length = N.toNat ∧
      ∀ c ∈ d.testCases, CaseOf n K.toNat c := by
  obtain ⟨hK, hN, base, hbase, w, hw, seed, hseed, cases, hcases, testCases, htests, -, bytes, -,
    hist, -, -, rfl⟩ := buildIaddFixture_eq_ok.mp h
  obtain rfl := Except.ok.inj (hparse.symm.trans hbase)
  obtain rfl := Except.ok.inj ((adderRegisterWidth_eq (declaresPair_iadd n 1) _).symm.trans hw)
  obtain ⟨c, hdrawn⟩ := @exists_firstCase lib.shake256 n (by omega) seed
  obtain ⟨rest, hlen, hrest⟩ := hdrawn (N.toNat - 1)
  rw [show ((N.toNat - 1 + 1 : ℕ) : ℤ) = N by omega] at hrest
  obtain rfl := Except.ok.inj (hcases.symm.trans hrest)
  refine ⟨rfl, ?_, fun fc hfc => ?_⟩
  · show testCases.length = N.toNat
    rw [length_of_mapM_ok htests, List.length_cons, hlen]
    omega
  · obtain ⟨c', hc', hone⟩ := exists_of_mem_mapM_ok htests fc hfc
    exact caseOf_fixtureCase hn hmax ((iaddTestCases_lt hcases).2 c' hc') hone

/-- **The generator on the workload**: it returns a document exactly when the labels are valid, and
    every such document counts the gates of the family, records `N` cases that are `K` additions
    each, and is accepted by the oracle. -/
theorem workload_fixture (comments : List (List Char)) (hc : ∀ l ∈ comments, PlainComment l)
    (hn : 3 ≤ n) (hmax : n ≤ 2 ^ 15) (hlib : lib.Sized) (git : Option (List Char))
    (messages : FixtureDocument → List String) (tier circuitSource pinCommit : List Char)
    (hK : 1 ≤ K ∧ K < 2 ^ 64) (hN : 1 ≤ N ∧ N < 2 ^ 64) :
    ((∃ d, buildIaddFixture lib git messages (iaddText comments n 1) K N tier circuitSource
        pinCommit = .ok d) ↔ LabelsValid tier circuitSource pinCommit) ∧
    ∀ d, buildIaddFixture lib git messages (iaddText comments n 1) K N tier circuitSource
        pinCommit = .ok d →
      d.demandedMaxQubitCount = 2 * n ∧ d.demandedMaxNonCliffordCount = (2 * n - 3) * K.toNat ∧
      d.demandedMaxCircuitInstructions = (10 * n - 13) * K.toNat ∧
      d.demandedNumSamples = N.toNat ∧ d.registerWidth = n ∧ d.testCases.length = N.toNat ∧
      (∀ c ∈ d.testCases, CaseOf n K.toNat c) ∧ verifyIaddFixture d.iaddFixture = .ok () := by
  have hparse := parseKmx_iadd hc hn hmax 1
  have hgates := gates_circuitOf_iadd hn hmax
  obtain ⟨d, hbuild, hvalid, haccept⟩ := build_iff_labels hlib git messages tier circuitSource
    pinCommit hparse (isAdder_iadd hn hmax) (by omega) (by rw [hgates, length_iadd hn]; omega) hK hN
  refine ⟨⟨fun h => hvalid.mp ?_, fun h => ⟨d, ?_⟩⟩, fun d' hd' => ?_⟩
  · obtain ⟨d', hd'⟩ := h
    by_contra hinvalid
    rw [hbuild, if_neg hinvalid] at hd'
    cases hd'
  · rw [hbuild, if_pos (hvalid.mpr h)]
  · obtain ⟨hwidth, hlen, hcases⟩ := cases_of_build hn hmax hparse hd'
    obtain ⟨-, -, base, hbase, hsamples, hqubits, hcliff, hinst⟩ := demanded_of_build hd'
    obtain rfl := Except.ok.inj (hparse.symm.trans hbase)
    rw [numQubits_iaddItems hn hmax] at hqubits
    rw [hgates, show (iadd n).countP _ = toffolis (iadd n) from rfl, toffolis_iadd hn] at hcliff
    rw [hgates, length_iadd hn] at hinst
    refine ⟨hqubits, hcliff, hinst, hsamples, hwidth, hlen, hcases, ?_⟩
    rw [hbuild] at hd'
    split_ifs at hd' with hv
    obtain rfl := Except.ok.inj hd'
    exact haccept

end Fixture

/-- The digests of the fixture with four repetitions of iadd64.kmx and sixteen samples: of the
    source, of its seed and of its circuit. -/
def fixtureLib : Hashlib where
  sha256 := fun data =>
    let source := digestOf 0xeb06cd07ae320b214792e702c3dafcf4a046c516b4632a294a98c875173a5c4f
    if data = sourceBytes (iaddText (iaddComments "18446744073709551616") 64 1) then source
    else if data = SEED ++ source ++ bytesLe 8 4 ++ bytesLe 8 16 then
      digestOf 0x049c0ba7f2408264e4cf53280e694fc8c26f11caeef6e13fb2309a246a59bf98
    else digestOf 0x9497d683040548cd8573ec674c615981fe0db95c621e84625bceaa1a190d829d
  blake2s := fun _ => digestOf 0xf90d5b87ce8c3223c127c9d44e0cd67b1693326a27ab5b52121a0e6c31ff2f14
  shake256 := Kickmix.shake256

theorem sized_fixtureLib : fixtureLib.Sized where
  sha256 data := by
    unfold fixtureLib
    dsimp only
    split_ifs <;> decide
  blake2s _ := List.length_reverse.trans (length_bytesLe _ _)

theorem labelsValid_fixture : LabelsValid "T0".toList "iadd64.kmx".toList
    "fc8dc785dee9aa1045e440ed42ba56942c458124".toList := by
  refine ⟨?_, ?_, ?_⟩ <;> decide

/-- The fixture v0.3-iadd64-k4-n16.json. -/
theorem workload_fixture_iadd64 : ∃ d, buildIaddFixture fixtureLib none (fun _ => [])
    (iaddText (iaddComments "18446744073709551616") 64 1) 4 16 "T0".toList "iadd64.kmx".toList
    "fc8dc785dee9aa1045e440ed42ba56942c458124".toList = .ok d :=
  (workload_fixture _ plainComment_iadd64 (by decide) (by decide) sized_fixtureLib none (fun _ => [])
    _ _ _ (by decide) (by decide)).1.mpr labelsValid_fixture

end GroverTax.Parity
