/-
  File:      GroverTax/Parity/Consumers.lean
  Subject:   The readers of the workload's fixtures: the oracle, the Cairo executable behind
             src/bin/iadd-prove and the native iadd256 program.

  * `honest_of_caseOf` -- a case of the fixture is a true sum for the native program;
  * **`workload_consumed`** -- **every fixture of the workload is accepted by all of its readers**, and
    the native program has a proof of it.
-/
import GroverTax.Parity.NativeIadd
import GroverTax.Parity.Prove
import GroverTax.Parity.WorkloadFixture

namespace GroverTax.Parity

open GroverTax.Lib GroverTax.Gtv1 GroverTax.Cairo
open GroverTax.Python (FixtureDocument FixtureCase Hashlib LabelsValid hex parseKmx digestOf
  buildIaddFixture verifyIaddFixture Item circuitOf)

/-! ## 1. The native program -/

/-- The cases the native program loads. -/
def nativeCases (d : FixtureDocument) : List NativeAir.TestCase :=
  d.testCases.map fun c => ⟨c.r0In, c.r1In, String.ofList c.yHex⟩

/-- The low register of a state. -/
theorem leNat_take_of_wires {data : List UInt8} {x y : ℕ} (hlen : 32 ≤ data.length)
    (h : wires data = pair 256 x y) : leNat (data.take 32) = x % 2 ^ 256 := by
  have htake : (data.take 32).length = 32 := by
    rw [List.length_take]
    omega
  have hlt : leNat (data.take 32) < 2 ^ 256 := by
    have e := leNat_lt (data.take 32)
    rwa [htake, pow_bytes] at e
  refine Nat.eq_of_testBit_eq fun i => ?_
  rw [Nat.testBit_mod_two_pow]
  by_cases hi : i < 256
  · have hbyte : i / 8 < 32 := by omega
    have hbit : wires data i = x.testBit i := by rw [h, pair_low hi]
    rw [decide_eq_true hi, Bool.true_and, testBit_leNat, ← hbit]
    simp only [wires, List.getD_eq_getElem?_getD, List.getElem?_take_of_lt hbyte]
  · rw [decide_eq_false hi, Bool.false_and]
    exact Nat.testBit_lt_two_pow (hlt.trans_le (Nat.pow_le_pow_right Nat.two_pos (by omega)))

/-- **A case of the fixture is a true sum.** -/
theorem honest_of_caseOf {k : ℕ} {c : FixtureCase} (h : CaseOf 256 k c) :
    NativeAir.Honest k ⟨c.r0In, c.r1In, String.ofList c.yHex⟩ := by
  obtain ⟨-, -, s, t, -, hy, -, htlen, -, htw⟩ := h
  have hread : NativeAir.hexDecode (String.ofList c.yHex).toList = some (t.map UInt8.toNat) := by
    rw [String.toList_ofList, hy, NativeAir.hexDecode_hex]
  have hlen : 32 ≤ t.length := by omega
  show NativeAir.lowRegisterFromStateHex (String.ofList c.yHex) = _
  rw [NativeAir.lowRegisterFromStateHex_eq hread hlen, leNat_take_of_wires hlen htw]

/-! ## 2. All of them -/

section Consumed

variable {lib : Hashlib} {tier circuitSource pinCommit : List Char} {n : ℕ} {K N : ℤ}

/-- **Every fixture of the workload is accepted by its readers**: for a register of 3 to 256 bits and
    counts that are `u32`, the generator returns a document, the oracle accepts it, the runner writes
    the input of the executable and the executable completes on it; for 256 bits the native program
    accepts the cases, and has a proof of them. -/
theorem workload_consumed (comments : List (List Char)) (hc : ∀ l ∈ comments, PlainComment l)
    (hn : 3 ≤ n ∧ n ≤ 256) (hlib : lib.Sized)
    (hblake : ∀ data, lib.blake2s data = Blake2s.digest data) (git : Option (List Char))
    (messages : FixtureDocument → List String) (hlabels : LabelsValid tier circuitSource pinCommit)
    (hK : 1 ≤ K ∧ K < 2 ^ 32) (hN : 1 ≤ N ∧ N < 2 ^ 32) :
    ∃ d input, buildIaddFixture lib git messages (iaddText comments n 1) K N tier circuitSource
        pinCommit = .ok d ∧
      verifyIaddFixture d.iaddFixture = .ok () ∧
      proveInner lib d = .ok input ∧ (∃ r, iaddExecutable input = some r) ∧
      (n = 256 → NativeAir.checkFixtureOutputs (nativeCases d) K.toNat = .ok () ∧
        NativeAir.Accepted .bits (nativeCases d) K.toNat
          (NativeAir.honestTrace K.toNat (nativeCases d))) := by
  have hmax : n ≤ 2 ^ 15 := hn.2.trans (by decide)
  have hparse := parseKmx_iadd hc hn.1 hmax 1
  have hgates := gates_circuitOf_iadd hn.1 hmax
  have hlen := length_iadd hn.1
  obtain ⟨d, hbuild, hvalid, haccept⟩ := Python.build_iff_labels hlib git messages tier circuitSource
    pinCommit hparse (isAdder_iadd hn.1 hmax) (by omega) (by rw [hgates, hlen]; omega)
    ⟨hK.1, hK.2.trans (by norm_num)⟩ ⟨hN.1, hN.2.trans (by norm_num)⟩
  rw [if_pos (hvalid.mpr hlabels)] at hbuild
  obtain ⟨-, -, base, cases, hbase, hw⟩ := written_of_build hbuild
  obtain rfl := Except.ok.inj (hparse.symm.trans hbase)
  obtain ⟨input, hinput, hiff⟩ := hw.executes hblake hparse (by omega) (by omega)
  have hfits : FitsExecutable (circuitOf (iaddItems n 1)) K.toNat N.toNat := by
    refine ⟨?_, by omega, ?_, by omega⟩
    · rw [hgates, hlen]
      omega
    · rw [numQubits_iaddItems hn.1 hmax]
      unfold BITS_PER_VALUE_512
      omega
  refine ⟨d, input, hbuild, haccept, hinput, hiff.mpr ⟨haccept, hfits⟩, ?_⟩
  rintro rfl
  obtain ⟨-, -, hcases⟩ := cases_of_build hn.1 hmax hparse hbuild
  have hhonest : ∀ case ∈ nativeCases d, NativeAir.Honest K.toNat case := by
    intro case hcase
    obtain ⟨c, hmem, rfl⟩ := List.mem_map.mp hcase
    exact honest_of_caseOf (hcases c hmem)
  exact ⟨NativeAir.checkFixtureOutputs_eq_ok.mpr hhonest, NativeAir.honest_accepted hhonest⟩

end Consumed

/-- The digests of the fixture with four repetitions of iadd256.kmx and sixteen samples. -/
def fixtureLib256 : Hashlib where
  sha256 := fun data =>
    let source := digestOf 0xeb85f1e61b235e2f598d910c93208b813f974aa02b43497b859dac02d4b2143d
    if data = Python.sourceBytes (iaddText [] 256 1) then source
    else if data = Python.SEED ++ source ++ bytesLe 8 4 ++ bytesLe 8 16 then
      digestOf 0x62211e560a8114a46a8d42ab2f85391763b04011d14de6cf2cb7efbe709091f9
    else digestOf 0x0bfaf2b9bbe81fdc7caba90935a47b40caec8995be2d09dbd67e530b5457eb12
  blake2s := Blake2s.digest
  shake256 := Kickmix.shake256

theorem sized_fixtureLib256 : fixtureLib256.Sized where
  sha256 data := by
    unfold fixtureLib256
    dsimp only
    split_ifs <;> decide
  blake2s := length_digest

/-- The fixture v0.3-iadd256-k4-n16.json. -/
theorem workload_consumed_iadd256 : ∃ d input, buildIaddFixture fixtureLib256 none (fun _ => [])
      (iaddText [] 256 1) 4 16 "T0".toList "iadd256.kmx".toList
      "fc8dc785dee9aa1045e440ed42ba56942c458124".toList = .ok d ∧
    verifyIaddFixture d.iaddFixture = .ok () ∧ proveInner fixtureLib256 d = .ok input ∧
    (∃ r, iaddExecutable input = some r) ∧
    (256 = 256 → NativeAir.checkFixtureOutputs (nativeCases d) 4 = .ok () ∧
      NativeAir.Accepted .bits (nativeCases d) 4 (NativeAir.honestTrace 4 (nativeCases d))) :=
  workload_consumed [] (List.forall_mem_nil _) (by decide) sized_fixtureLib256 (fun _ => rfl) none
    (fun _ => []) ⟨by decide, by decide, by decide⟩ (by decide) (by decide)

end GroverTax.Parity
