/-
  File:      GroverTax/Python/KFold.lean
  Subject:   Repeated execution against repeated addition: the cases of src/python/grover_tax/
             iadd_fixture.py on a circuit that adds once.

  * `DeclaresPair` -- the two registers of an adder; `exists_encodePair` -- they are always encoded;
  * `IsAdder` -- a circuit that adds its second register to its first, once;
  * `runReps_encodePair` -- `k` runs add `k` times;
  * `forall_recorded` -- a recorded case holds the state before the runs and the state after;
  * `buildIaddFixture_accepted` -- **every case is what the circuit computes, the generator's check
    raises nothing, and the oracle accepts every document.**
-/
import GroverTax.Python.Demanded
import GroverTax.Python.RegisterCodec

namespace GroverTax.Python

open GroverTax.Lib GroverTax.Gtv1

/-! ## 1. Adders -/

/-- The state of the two registers. -/
def encodePair (base : KmxCircuit) (x y : ℕ) : Except RegisterError (List UInt8) :=
  encodeRegisters [(ACC_REGISTER, x), (OFFSET_REGISTER, y)] (registerLayout base)
    (minStateBytes base)

/-- Two registers of `w` qubits each. -/
def DeclaresPair (base : KmxCircuit) (w : ℕ) : Prop :=
  ∃ r0 r1, (registerLayout base).lookup ACC_REGISTER = some r0 ∧
    (registerLayout base).lookup OFFSET_REGISTER = some r1 ∧ r0.length = w ∧ r1.length = w

/-- A circuit that adds once, on registers of `w` qubits each. -/
structure IsAdder (base : KmxCircuit) (w : ℕ) : Prop where
  registers : ∃ r0 r1, (registerLayout base).lookup ACC_REGISTER = some r0 ∧
    (registerLayout base).lookup OFFSET_REGISTER = some r1 ∧
    r0.length = w ∧ r1.length = w ∧ (r0 ++ r1).Nodup
  adds : ∀ x y s t, x < 2 ^ w → y < 2 ^ w → encodePair base x y = .ok s →
    encodePair base ((x + y) % 2 ^ w) y = .ok t → run base.gates s = .ok t

section Adder

variable {text : List Char} {base : KmxCircuit} {w : ℕ}

theorem IsAdder.declaresPair (hadd : IsAdder base w) : DeclaresPair base w := by
  obtain ⟨r0, r1, hr0, hr1, hlen0, hlen1, -⟩ := hadd.registers
  exact ⟨r0, r1, hr0, hr1, hlen0, hlen1⟩

/-- **Two registers are always encoded.** -/
theorem exists_encodePair (hparse : parseKmx text = .ok base) (hpair : DeclaresPair base w)
    (x y : ℕ) : ∃ s, encodePair base x y = .ok s ∧ s.length = minStateBytes base ∧
      wires s = writes (fun _ => false)
        (placed (registerLayout base) [(ACC_REGISTER, x), (OFFSET_REGISTER, y)]) := by
  obtain ⟨r0, r1, hr0, hr1, -⟩ := hpair
  have hfits := layoutFits_of_parseKmx hparse
  have hkeys : ∀ e ∈ [(ACC_REGISTER, x), (OFFSET_REGISTER, y)],
      e.1 ∈ (registerLayout base).map Prod.fst := by
    intro e he
    rw [List.mem_cons, List.mem_singleton] at he
    rcases he with rfl | rfl
    · exact List.mem_map_of_mem (mem_of_lookup hr0)
    · exact List.mem_map_of_mem (mem_of_lookup hr1)
  exact exists_encodeRegisters hkeys fun e he q hq =>
    (hfits.lt e he q hq).trans_le (numQubits_le base)

/-- **`k` runs add `k` times.** -/
theorem runReps_encodePair (hparse : parseKmx text = .ok base) (hadd : IsAdder base w) {y : ℕ}
    (hy : y < 2 ^ w) (k : ℕ) {x : ℕ} {s t : List UInt8} (hx : x < 2 ^ w)
    (hs : encodePair base x y = .ok s) (ht : encodePair base ((x + k * y) % 2 ^ w) y = .ok t) :
    runReps base.gates k s = .ok t := by
  choose state hstate _ _ using fun x => exists_encodePair hparse hadd.declaresPair x y
  have hrun := runReps_add (Nat.two_pow_pos w)
    (fun a ha => hadd.adds a y _ _ ha hy (hstate a) (hstate _)) k hx
  rwa [Except.ok.inj ((hstate _).symm.trans hs), Except.ok.inj ((hstate _).symm.trans ht)] at hrun

/-- The two registers share no qubit, so every bit stands. -/
theorem agree_placed_pair (hadd : IsAdder base w) (x y : ℕ) :
    Agree (placed (registerLayout base) [(ACC_REGISTER, x), (OFFSET_REGISTER, y)]) := by
  obtain ⟨r0, r1, hr0, hr1, -, -, hnd⟩ := hadd.registers
  have hfst : (placed (registerLayout base) [(ACC_REGISTER, x), (OFFSET_REGISTER, y)]).map Prod.fst
      = r0 ++ r1 := by
    rw [placed, List.flatMap_cons, List.flatMap_singleton, hr0, hr1, List.map_append, List.map_map,
      List.map_map]
    exact congrArg₂ (· ++ ·) (List.zipIdx_map_fst 0 r0) (List.zipIdx_map_fst 0 r1)
  refine agree_of_nodup ?_
  rwa [hfst]

/-- An adder of at least one bit has a gate. -/
theorem gates_ne_nil (hparse : parseKmx text = .ok base) (hadd : IsAdder base w) (hw : 0 < w) :
    base.gates ≠ [] := by
  intro hnil
  obtain ⟨r0, -, hr0, -, hlen, -⟩ := hadd.registers
  obtain ⟨s, hs, -, hws⟩ := exists_encodePair hparse hadd.declaresPair 0 1
  obtain ⟨t, ht, -, hwt⟩ := exists_encodePair hparse hadd.declaresPair 1 1
  have hone : 1 < 2 ^ w := Nat.one_lt_two_pow (by omega)
  have hrun := hadd.adds 0 1 s t (Nat.two_pow_pos w) hone hs (by
    rw [Nat.zero_add, Nat.mod_eq_of_lt hone]
    exact ht)
  -- without a gate the two states are one, but they differ at the first qubit
  have hsame : s = t := by
    rw [hnil] at hrun
    exact Except.ok.inj hrun
  have hfirst : ∀ x, writes (fun _ => false)
      (placed (registerLayout base) [(ACC_REGISTER, x), (OFFSET_REGISTER, 1)]) r0[0]
        = x.testBit 0 := by
    intro x
    exact agree_iff.mp (agree_placed_pair hadd x 1) _
      (mem_placed List.mem_cons_self hr0 (getElem_mem_zipIdx (hlen ▸ hw)))
  have hbit := congrFun (hws.symm.trans (hsame ▸ hwt)) r0[0]
  rw [hfirst, hfirst] at hbit
  cases hbit

end Adder

/-! ## 2. The cases -/

section Cases

variable {digest : List UInt8 → ℕ → List UInt8} {text : List Char} {base : KmxCircuit} {w k : ℕ}
  {u : Unit}

/-- The operands that the loop draws are masked. -/
theorem caseLoop_le {nbytes : ℤ} {mask : ℕ} : ∀ {n : ℕ} {xof : XOF} {cases cases' : List (ℕ × ℕ)},
    caseLoop digest nbytes mask n xof cases = .ok cases' →
    (∀ p ∈ cases, p.1 ≤ mask ∧ p.2 ≤ mask) → ∀ p ∈ cases', p.1 ≤ mask ∧ p.2 ≤ mask
  | 0, xof, cases, cases', h, hcases => by
      obtain rfl := Except.ok.inj h
      exact hcases
  | n + 1, xof, cases, cases', h, hcases => by
      rw [caseLoop] at h
      obtain ⟨r1, -, h⟩ := bind_eq_ok.mp h
      obtain ⟨r2, -, h⟩ := bind_eq_ok.mp h
      refine caseLoop_le h ?_
      rw [List.forall_mem_append, List.forall_mem_singleton]
      exact ⟨hcases, Nat.and_le_right, Nat.and_le_right⟩

/-- **The test cases**: a register has a qubit, and the operands fit it. -/
theorem iaddTestCases_lt {nSamples : ℤ} {seed : List UInt8} {cases : List AdderCase}
    (h : iaddTestCases digest w nSamples seed = .ok cases) :
    0 < w ∧ ∀ c ∈ cases, c.x < 2 ^ w ∧ c.y < 2 ^ w := by
  unfold iaddTestCases at h
  split_ifs at h with hwidth hcount
  obtain ⟨operands, hops, h⟩ := bind_eq_ok.mp h
  obtain rfl := Except.ok.inj h
  refine ⟨by omega, fun c hc => ?_⟩
  obtain ⟨p, hp, rfl⟩ := List.mem_map.mp hc
  have hle := caseLoop_le (mapError_eq_ok.mp hops) (List.forall_mem_nil _) p hp
  have hmask : 1 <<< (w : ℤ).toNat - 1 < 2 ^ w := by
    rw [Int.toNat_natCast, Nat.one_shiftLeft]
    exact Nat.sub_lt (Nat.two_pow_pos w) Nat.one_pos
  exact ⟨hle.1.trans_lt hmask, hle.2.trans_lt hmask⟩

/-- A recorded case holds the state before the runs and the state after. -/
def Recorded (gates : List Gate) (k : ℕ) (c : FixtureCase) : Prop :=
  ∃ s t, c.xHex = hex s ∧ c.yHex = hex t ∧ runReps gates k s = .ok t

theorem recorded_of_fixtureCase (hparse : parseKmx text = .ok base) (hadd : IsAdder base w)
    {c : AdderCase} {fc : FixtureCase} (hc : c.x < 2 ^ w ∧ c.y < 2 ^ w)
    (h : fixtureCase k (1 <<< w) (registerLayout base) (minStateBytes base) c = .ok fc) :
    Recorded base.gates k fc := by
  obtain ⟨s, hs, h⟩ := bind_eq_ok.mp h
  obtain ⟨t, ht, h⟩ := bind_eq_ok.mp h
  obtain rfl := Except.ok.inj h
  rw [Nat.one_shiftLeft] at ht
  exact ⟨s, t, rfl, rfl, runReps_encodePair hparse hadd hc.2 k hc.1 (mapError_eq_ok.mp hs)
    (mapError_eq_ok.mp ht)⟩

/-- **Every case that the generator records.** -/
theorem forall_recorded (hparse : parseKmx text = .ok base) (hadd : IsAdder base w)
    {cases : List AdderCase} {testCases : List FixtureCase}
    (hcases : ∀ c ∈ cases, c.x < 2 ^ w ∧ c.y < 2 ^ w)
    (h : cases.mapM (fixtureCase k (1 <<< w) (registerLayout base) (minStateBytes base)) =
      .ok testCases) : ∀ fc ∈ testCases, Recorded base.gates k fc := by
  intro fc hfc
  obtain ⟨c, hc, hone⟩ := exists_of_mem_mapM_ok h fc hfc
  exact recorded_of_fixtureCase hparse hadd (hcases c hc) hone

theorem fromHexB_eq_ok {s : List Char} {bytes : List UInt8} :
    fromHexB s = .ok bytes ↔ fromHex s = some bytes := by
  unfold fromHexB
  cases fromHex s with
  | none => exact iff_of_false (fun h => nomatch h) (fun h => nomatch h)
  | some b => exact ⟨fun h => congrArg _ (Except.ok.inj h), fun h => congrArg _ (Option.some.inj h)⟩

/-- When a case is replayed without an exception. -/
theorem replayCase_eq_ok {gates : List Gate} (c : FixtureCase) (i : ℕ) :
    replayCase gates k (c, i) = .ok u ↔
      ∃ s t, fromHex c.xHex = some s ∧ fromHex c.yHex = some t ∧ runReps gates k s = .ok t := by
  unfold replayCase
  simp only [bind_eq_ok, fromHexB_eq_ok, mapError_eq_ok]
  constructor
  · intro h
    obtain ⟨s, hs, t, ht, t', ht', h⟩ := h
    split_ifs at h with hne
    rw [not_ne_iff] at hne
    exact ⟨s, t', hs, ht', hne ▸ ht⟩
  · intro h
    obtain ⟨s, t, hs, ht, hrun⟩ := h
    exact ⟨s, hs, t, hrun, t, ht, if_neg (not_not.mpr rfl)⟩

/-- The two states of a recorded case, read from its text. -/
theorem Recorded.reads {gates : List Gate} {c : FixtureCase} (h : Recorded gates k c) :
    ∃ s t, fromHex c.xHex = some s ∧ fromHex c.yHex = some t ∧ runReps gates k s = .ok t := by
  obtain ⟨s, t, hx, hy, hrun⟩ := h
  exact ⟨s, t, hx ▸ fromHex_hex s, hy ▸ fromHex_hex t, hrun⟩

/-- **The generator's check passes** on recorded cases. -/
theorem simCrossValidate_of_recorded {testCases : List FixtureCase} (hne : base.gates ≠ [])
    (hk : 0 < k) (h : ∀ c ∈ testCases, Recorded base.gates k c) :
    simCrossValidate base testCases k = .ok () := by
  have hsteps : base.gates.length * k ≠ 0 :=
    Nat.mul_ne_zero (List.length_pos_iff.mpr hne).ne' hk.ne'
  unfold simCrossValidate
  rw [if_neg hsteps]
  refine (forM_zipIdx_eq_ok replayCase_eq_ok).mpr fun c hc => ?_
  exact (h c (List.mem_of_mem_take hc)).reads

end Cases

/-! ## 3. The document -/

/-- The width that the generator finds. -/
theorem adderRegisterWidth_eq {base : KmxCircuit} {w : ℕ} (hpair : DeclaresPair base w)
    (circuitSource : List Char) : adderRegisterWidth base circuitSource = .ok w := by
  obtain ⟨r0, r1, hr0, hr1, rfl, hlen⟩ := hpair
  simp only [adderRegisterWidth, hr0, hr1, if_neg (not_not.mpr hlen)]

/-- What the oracle reads of a document. -/
def FixtureDocument.iaddFixture (d : FixtureDocument) : IaddFixture where
  circuitByteSerialisationHex := d.circuitByteSerialisationHex
  repetitions := some d.repetitions
  testCases := d.testCases.map fun c => ⟨c.xHex, c.yHex⟩

/-- **On an adder every case is what the circuit computes**: the generator's check raises nothing on
    the cases it is given, and the oracle accepts every document that is built. -/
theorem buildIaddFixture_accepted {text : List Char} {base : KmxCircuit} {w : ℕ}
    (hparse : parseKmx text = .ok base) (hadd : IsAdder base w) {repetitions : ℤ}
    (hk : 1 ≤ repetitions) (nSamples : ℤ) (lib : Hashlib) (git : Option (List Char))
    (messages : FixtureDocument → List String) (tier circuitSource pinCommit : List Char) :
    (∀ seed cases testCases, iaddTestCases lib.shake256 w nSamples seed = .ok cases →
      cases.mapM (fixtureCase repetitions.toNat (1 <<< w) (registerLayout base)
        (minStateBytes base)) = .ok testCases →
      simCrossValidate base testCases repetitions.toNat = .ok ()) ∧
    ∀ d, buildIaddFixture lib git messages text repetitions nSamples tier circuitSource pinCommit =
        .ok d →
      (∀ c ∈ d.testCases, ∃ s t, c.xHex = hex s ∧ c.yHex = hex t ∧
        runReps base.gates repetitions.toNat s = .ok t) ∧
      verifyIaddFixture d.iaddFixture = .ok () := by
  refine ⟨fun seed cases testCases hcases htests => ?_, fun d h => ?_⟩
  · obtain ⟨hw, hlt⟩ := iaddTestCases_lt hcases
    exact simCrossValidate_of_recorded (gates_ne_nil hparse hadd hw) (by omega)
      (forall_recorded hparse hadd hlt htests)
  · obtain ⟨-, -, base', hbase, w', hw', seed, -, cases, hcases, testCases, htests, -, circuitBytes,
      hbytes, hist, -, -, rfl⟩ := buildIaddFixture_eq_ok.mp h
    obtain rfl := Except.ok.inj (hparse.symm.trans hbase)
    obtain rfl := Except.ok.inj ((adderRegisterWidth_eq hadd.declaresPair _).symm.trans hw')
    obtain ⟨-, hlt⟩ := iaddTestCases_lt hcases
    have hall := forall_recorded hparse hadd hlt htests
    obtain ⟨⟨hlen, hfit⟩, rfl⟩ := serialise_eq_ok.mp hbytes
    refine ⟨hall, verifyIaddFixture_eq_ok.mpr ⟨_, _, fromHex_hex _, deserialise_encode hlen hfit,
      fun c hc => ?_⟩⟩
    obtain ⟨fc, hfc, rfl⟩ := List.mem_map.mp hc
    obtain ⟨s, t, hs, ht, hrun⟩ := (hall fc hfc).reads
    exact ⟨s, t, ⟨hs, ht⟩, hrun⟩

/-- The adder of one bit. -/
theorem isAdder_adderText : ∃ base, parseKmx adderText = .ok base ∧ IsAdder base 1 := by
  have hlayout : (parseKmx adderText).map (fun c => (registerLayout c, minStateBytes c, c.gates)) =
      .ok ([(ACC_REGISTER, [0]), (OFFSET_REGISTER, [1])], 1, [⟨OP_CNOT, 0, 1, NO_CTRL⟩]) := by
    decide +kernel
  obtain ⟨base, hbase, htriple⟩ := map_eq_ok.mp hlayout
  obtain ⟨hl, hrest⟩ := Prod.mk.inj htriple
  obtain ⟨hb, hg⟩ := Prod.mk.inj hrest
  refine ⟨base, hbase, ⟨[0], [1], ?_, ?_, rfl, rfl, by decide⟩, ?_⟩
  · rw [hl]
    rfl
  · rw [hl]
    rfl
  · intro x y s t hx hy hs ht
    unfold encodePair at hs ht
    rw [hl, hb] at hs ht
    rw [hg]
    interval_cases x <;> interval_cases y
    all_goals
      cases hs
      cases ht
      rfl

theorem buildIaddFixture_accepted_thrice : ∃ d, buildAdder 3 = .ok d ∧
    verifyIaddFixture d.iaddFixture = .ok () := by
  have hok : (buildAdder 3).isOk = true := by decide +kernel
  obtain ⟨base, hparse, hadd⟩ := isAdder_adderText
  cases hd : buildAdder 3 with
  | error e =>
    rw [hd] at hok
    cases hok
  | ok d =>
    exact ⟨d, rfl, ((buildIaddFixture_accepted hparse hadd (by decide) 1 adderLib none
      (fun _ => []) _ _ _).2 d hd).2⟩

end GroverTax.Python
