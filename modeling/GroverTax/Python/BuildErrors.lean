/-
  File:      GroverTax/Python/BuildErrors.lean
  Subject:   The exceptions of `build_iadd_fixture`, src/python/grover_tax/iadd_fixture.py, on the
             circuits that have the two registers of an adder.

  Its docstring names no exception but `FixtureError`, and its caller catches no other.
  * `BuildError.isFixtureError` -- the documented ones;
  * `exists_build_eq` -- nothing is raised before the check of the cases, whatever the circuit: the
    seed, the cases and the encoding of the registers;
  * `documented_simCrossValidate` -- with a gate the check raises nothing else;
  * `build_documented_iff` -- **the generator fails only as documented unless there is no gate**, for
    the budget of the check is divided by the gate steps of a case, **or there are more gates than
    the format can count.**
-/
import GroverTax.Lib.Raises
import GroverTax.Python.KFold
import GroverTax.Python.KmxGates

namespace GroverTax.Python

open GroverTax.Lib GroverTax.Gtv1

/-! ## 1. Documented exceptions -/

/-- The instances of `FixtureError`. -/
def BuildError.isFixtureError : BuildError → Bool
  | .kmx e => e != .builtin
  | .twoRegisters _ _ => true
  | .widthsDiffer _ _ _ => true
  | .crossValidationFail _ _ _ _ => true
  | .schemaInvalid _ => true
  | _ => false

/-- The computation raises a `FixtureError`, if anything. -/
def Documented {A : Type} (x : Except BuildError A) : Prop := Raises (·.isFixtureError = true) x

/-! ## 2. The drawn cases -/

section Drawn

variable {digest : List UInt8 → ℕ → List UInt8} {nbytes : ℤ} {mask w : ℕ}

/-- A read of no negative length returns. -/
theorem exists_read (hn : 0 ≤ nbytes) (xof : XOF) : ∃ r, xof.read digest nbytes = .ok r := by
  unfold XOF.read
  rw [if_neg (by omega)]
  split_ifs
  · exact ⟨_, rfl⟩
  · exact ⟨_, rfl⟩

/-- The loop adds one case a turn. -/
theorem exists_caseLoop (hn : 0 ≤ nbytes) : ∀ (n : ℕ) (xof : XOF) (cases : List (ℕ × ℕ)),
    ∃ rest, rest.length = n ∧ caseLoop digest nbytes mask n xof cases = .ok (cases ++ rest)
  | 0, xof, cases => ⟨[], rfl, by rw [caseLoop, List.append_nil]⟩
  | n + 1, xof, cases => by
      obtain ⟨⟨xBytes, xof1⟩, h1⟩ := @exists_read digest nbytes hn xof
      obtain ⟨⟨yBytes, xof2⟩, h2⟩ := @exists_read digest nbytes hn xof1
      obtain ⟨rest, hlen, hrest⟩ := exists_caseLoop hn n xof2
        (cases ++ [(leNat xBytes &&& mask, leNat yBytes &&& mask)])
      refine ⟨(leNat xBytes &&& mask, leNat yBytes &&& mask) :: rest, by rw [← hlen]; rfl, ?_⟩
      rw [List.append_assoc] at hrest
      exact bind_eq_ok.mpr ⟨_, h1, bind_eq_ok.mpr ⟨_, h2, hrest⟩⟩

/-- The first pair does not depend on how many are drawn. -/
theorem exists_firstPair (hn : 0 ≤ nbytes) (xof : XOF) : ∃ p, ∀ n, ∃ rest, rest.length = n ∧
    caseLoop digest nbytes mask (n + 1) xof [] = .ok (p :: rest) := by
  obtain ⟨⟨xBytes, xof1⟩, h1⟩ := @exists_read digest nbytes hn xof
  obtain ⟨⟨yBytes, xof2⟩, h2⟩ := @exists_read digest nbytes hn xof1
  refine ⟨(leNat xBytes &&& mask, leNat yBytes &&& mask), fun n => ?_⟩
  obtain ⟨rest, hlen, hrest⟩ := @exists_caseLoop digest nbytes mask hn n xof2
    [(leNat xBytes &&& mask, leNat yBytes &&& mask)]
  exact ⟨rest, hlen, bind_eq_ok.mpr ⟨_, h1, bind_eq_ok.mpr ⟨_, h2, hrest⟩⟩⟩

/-- **The drawing returns**, with the same first case for every count. -/
theorem exists_firstCase (hw : 0 < w) (seed : List UInt8) : ∃ c, ∀ n : ℕ, ∃ rest,
    rest.length = n ∧ iaddTestCases digest w (n + 1 : ℕ) seed = .ok (c :: rest) := by
  have hn : (0 : ℤ) ≤ ((w : ℤ) + 8 - 1) / 8 := by omega
  obtain ⟨p, hp⟩ := @exists_firstPair digest _ (1 <<< w - 1) hn { seed := seed }
  refine ⟨⟨p.1, p.2, (p.1 + p.2) % (1 <<< w), w⟩, fun n => ?_⟩
  obtain ⟨rest, hlen, hrest⟩ := hp n
  refine ⟨rest.map fun p => ⟨p.1, p.2, (p.1 + p.2) % (1 <<< w), w⟩, ?_, ?_⟩
  · rw [List.length_map, hlen]
  · unfold iaddTestCases
    rw [if_neg (by omega), if_neg (by omega)]
    exact bind_eq_ok.mpr ⟨_, mapError_eq_ok.mpr hrest, rfl⟩

end Drawn

/-! ## 3. The recorded cases -/

section Recorded

variable {lib : Hashlib} {text : List Char} {base : KmxCircuit} {gates : List Gate} {k n w : ℕ}
  {fc : FixtureCase}

/-- Both numbers fit their eight bytes, and the digest of the source is read back from its text. -/
theorem exists_seedBytes (lib : Hashlib) (text : List Char) (hk : k < 2 ^ 64) (hn : n < 2 ^ 64) :
    ∃ seed, seedBytes lib text k n = .ok seed := by
  have hhash : fromHexB (kmxSourceSha256 lib text) = .ok (lib.sha256 (sourceBytes text)) :=
    fromHexB_eq_ok.mpr (fromHex_hex _)
  exact ⟨_, bind_eq_ok.mpr ⟨_, hhash, bind_eq_ok.mpr ⟨_, if_pos hk,
    bind_eq_ok.mpr ⟨_, if_pos hn, rfl⟩⟩⟩⟩

/-- Runs of gates in range return. -/
theorem exists_runReps : ∀ (k : ℕ) {x : List UInt8}, (∀ g ∈ gates, g.InRange (8 * x.length)) →
    ∃ y, runReps gates k x = .ok y
  | 0, x, _ => ⟨x, rfl⟩
  | k + 1, x, h => by
      obtain ⟨x1, hlen, hw⟩ := exists_simulate x h
      obtain ⟨y, hy⟩ := @exists_runReps k x1 (by rwa [hlen])
      exact ⟨y, bind_eq_ok.mpr ⟨x1, run_ok_iff.mpr ⟨h, hlen, hw⟩, hy⟩⟩

/-- A recorded case whose runs return. -/
def Replayable (gates : List Gate) (k : ℕ) (fc : FixtureCase) : Prop :=
  ∃ s t y, fc.xHex = hex s ∧ fc.yHex = hex t ∧ runReps gates k s = .ok y

/-- The two states of a drawn case are encoded. -/
theorem fixtureCase_eq {c : AdderCase} {s t : List UInt8} (hs : encodePair base c.x c.y = .ok s)
    (ht : encodePair base ((c.x + k * c.y) % 2 ^ w) c.y = .ok t) :
    fixtureCase k (1 <<< w) (registerLayout base) (minStateBytes base) c =
      .ok ⟨c.x, c.y, hex s, hex t⟩ := by
  rw [Nat.one_shiftLeft]
  exact bind_eq_ok.mpr ⟨s, mapError_eq_ok.mpr hs, bind_eq_ok.mpr ⟨t, mapError_eq_ok.mpr ht, rfl⟩⟩

/-- **Every drawn case is recorded**, and its runs return: the registers and the gates are on the
    qubits of the state. -/
theorem exists_fixtureCase (hparse : parseKmx text = .ok base) (hpair : DeclaresPair base w)
    (k : ℕ) (c : AdderCase) :
    ∃ fc, fixtureCase k (1 <<< w) (registerLayout base) (minStateBytes base) c = .ok fc ∧
      Replayable base.gates k fc := by
  obtain ⟨s, hs, hlen, -⟩ := exists_encodePair hparse hpair c.x c.y
  obtain ⟨t, ht, -⟩ := exists_encodePair hparse hpair ((c.x + k * c.y) % 2 ^ w) c.y
  obtain ⟨y, hy⟩ := @exists_runReps base.gates k s fun g hg => by
    rw [hlen]
    exact (inRange_of_parseKmx hparse g hg).mono (numQubits_le base)
  exact ⟨_, fixtureCase_eq hs ht, s, t, y, rfl, rfl, hy⟩

/-- **So is a list of them.** -/
theorem exists_testCases (hparse : parseKmx text = .ok base) (hpair : DeclaresPair base w) (k : ℕ)
    (cases : List AdderCase) : ∃ testCases,
      cases.mapM (fixtureCase k (1 <<< w) (registerLayout base) (minStateBytes base)) =
        .ok testCases ∧ ∀ fc ∈ testCases, Replayable base.gates k fc := by
  have hone := fun c => exists_fixtureCase hparse hpair k c
  have hnone := raises_mapM fun c (_ : c ∈ cases) => exists_ok_iff.mp ((hone c).imp fun _ h => h.1)
  obtain ⟨testCases, htests⟩ := exists_ok_iff.mpr hnone
  refine ⟨testCases, htests, fun fc hfc => ?_⟩
  obtain ⟨c, -, hc⟩ := exists_of_mem_mapM_ok htests fc hfc
  obtain ⟨fc', hfc', hreplay⟩ := hone c
  obtain rfl := Except.ok.inj (hfc'.symm.trans hc)
  exact hreplay

/-- The replay of a case raises nothing but the documented mismatch. -/
theorem documented_replayCase (h : Replayable gates k fc) (i : ℕ) :
    Documented (replayCase gates k (fc, i)) := by
  obtain ⟨s, t, y, hx, hy, hrun⟩ := h
  have hs : fromHexB fc.xHex = .ok s := fromHexB_eq_ok.mpr (hx ▸ fromHex_hex s)
  have ht : fromHexB fc.yHex = .ok t := fromHexB_eq_ok.mpr (hy ▸ fromHex_hex t)
  unfold replayCase
  dsimp only
  rw [hs, ht]
  refine Raises.bind (raises_ok s) fun s' hs' => ?_
  obtain rfl := Except.ok.inj hs'
  rw [hrun]
  refine Raises.bind (raises_ok y) fun y' _ => Raises.bind (raises_ok t) fun t' _ => ?_
  split_ifs
  · exact raises_error.mpr rfl
  · exact raises_ok ()

end Recorded

/-! ## 4. The check and what follows it -/

section Check

variable {text : List Char} {base : KmxCircuit} {k : ℕ} {fc : FixtureCase}
  {testCases : List FixtureCase}

/-- **The budget is divided by the gate steps of a case.** -/
theorem simCrossValidate_nil (hnil : base.gates = []) (testCases : List FixtureCase) (k : ℕ) :
    simCrossValidate base testCases k = .error .zeroDivision := by
  unfold simCrossValidate
  rw [hnil]
  exact if_pos (Nat.zero_mul k)

/-- **With a gate the check raises nothing but the documented mismatch.** -/
theorem documented_simCrossValidate (hne : base.gates ≠ []) (hk : 0 < k)
    (h : ∀ fc ∈ testCases, Replayable base.gates k fc) :
    Documented (simCrossValidate base testCases k) := by
  have hsteps : base.gates.length * k ≠ 0 :=
    Nat.mul_ne_zero (List.length_pos_iff.mpr hne).ne' hk.ne'
  unfold simCrossValidate
  rw [if_neg hsteps]
  refine raises_forM fun p hp => documented_replayCase (h p.1 ?_) p.2
  exact List.mem_of_mem_take (List.fst_mem_of_mem_zipIdx hp)

/-- **Past the budget one case is replayed**, the first. -/
theorem simCrossValidate_large (hlarge : SIM_BUDGET_GATE_STEPS < base.gates.length * k) :
    simCrossValidate base (fc :: testCases) k = .ok () ↔
      ∃ s t, fromHex fc.xHex = some s ∧ fromHex fc.yHex = some t ∧
        runReps base.gates k s = .ok t := by
  have hone : min (fc :: testCases).length
      (max 1 (SIM_BUDGET_GATE_STEPS / (base.gates.length * k))) = 1 := by
    rw [Nat.div_eq_of_lt hlarge, List.length_cons]
    omega
  unfold simCrossValidate
  rw [if_neg (by omega)]
  dsimp only
  rw [hone, forM_zipIdx_eq_ok replayCase_eq_ok]
  exact List.forall_mem_singleton

theorem raises_countOpcode {g : Gate} (hg : g.opcode ≤ OP_TOFFOLI) (counts : Histogram) :
    Raises (fun _ => False) (countOpcode counts g) := by
  unfold countOpcode
  split_ifs with h0 h1 h2 h3
  · exact raises_ok _
  · exact raises_ok _
  · exact raises_ok _
  · exact raises_ok _
  · unfold OP_NOP OP_NOT OP_CNOT OP_TOFFOLI at *
    omega

/-- The opcodes of parsed gates are counted. -/
theorem exists_opcodeHistogram (hparse : parseKmx text = .ok base) :
    ∃ hist, opcodeHistogram base.gates = .ok hist :=
  exists_ok_iff.mpr (raises_foldlM fun g hg counts =>
    raises_countOpcode (fits_of_parseKmx hparse g hg).opcode counts)

/-- **The encoder only minds the number of gates**: parsed gates fit the records. -/
theorem exists_serialise_iff (hparse : parseKmx text = .ok base) :
    (∃ bytes, serialise base.gates = .ok bytes) ↔ base.gates.length < 2 ^ 32 := by
  refine ⟨fun h => ?_, fun hlen => ?_⟩
  · obtain ⟨bytes, hbytes⟩ := h
    exact (serialise_eq_ok.mp hbytes).1.1
  · exact ⟨_, serialise_eq_ok.mpr ⟨⟨hlen, fits_of_parseKmx hparse⟩, rfl⟩⟩

end Check

/-! ## 5. The generator -/

section Build

variable {lib : Hashlib} {git : Option (List Char)} {messages : FixtureDocument → List String}
  {text tier circuitSource pinCommit : List Char} {K N : ℤ} {base : KmxCircuit} {w : ℕ}
  {seed : List UInt8} {testCases : List FixtureCase}

/-- What the generator does when the cases are checked. -/
def afterCheck (lib : Hashlib) (git : Option (List Char)) (messages : FixtureDocument → List String)
    (text : List Char) (base : KmxCircuit) (K N : ℤ) (tier circuitSource pinCommit : List Char)
    (w : ℕ) (seed : List UInt8) (testCases : List FixtureCase) :
    Except BuildError FixtureDocument := do
  let circuitBytes ← (serialise base.gates).mapError .serialise
  let hist ← opcodeHistogram base.gates
  let fixture := assemble lib git text base K.toNat N.toNat tier circuitSource pinCommit w seed
    testCases circuitBytes hist
  if schemaValid fixture then return fixture
  else .error (.schemaInvalid ((messages fixture).take 5))

/-- **The generator up to the check**, when every step before it returns. -/
theorem buildIaddFixture_eq {cases : List AdderCase} (hK : 1 ≤ K) (hN : 1 ≤ N)
    (hparse : parseKmx text = .ok base) (hw : adderRegisterWidth base circuitSource = .ok w)
    (hseed : seedBytes lib text K.toNat N.toNat = .ok seed)
    (hcases : iaddTestCases lib.shake256 w N seed = .ok cases)
    (htests : cases.mapM (fixtureCase K.toNat (1 <<< w) (registerLayout base)
      (minStateBytes base)) = .ok testCases) :
    buildIaddFixture lib git messages text K N tier circuitSource pinCommit =
      (simCrossValidate base testCases K.toNat >>= fun _ =>
        afterCheck lib git messages text base K N tier circuitSource pinCommit w seed testCases) := by
  unfold buildIaddFixture
  rw [if_neg (by omega), if_neg (by omega)]
  dsimp only
  rw [bind_of_ok (mapError_eq_ok.mpr hparse), bind_of_ok hw, bind_of_ok hseed,
    bind_of_ok (mapError_eq_ok.mpr hcases), bind_of_ok htests]
  rfl

theorem documented_afterCheck (hparse : parseKmx text = .ok base)
    (hlen : base.gates.length < 2 ^ 32) :
    Documented (afterCheck lib git messages text base K N tier circuitSource pinCommit w seed
      testCases) := by
  obtain ⟨bytes, hbytes⟩ := (exists_serialise_iff hparse).mpr hlen
  obtain ⟨hist, hhist⟩ := exists_opcodeHistogram hparse
  unfold afterCheck
  rw [bind_of_ok (mapError_eq_ok.mpr hbytes), bind_of_ok hhist]
  dsimp only
  split_ifs
  · exact raises_ok _
  · exact raises_error.mpr rfl

/-- More gates than the header can count. -/
theorem afterCheck_large (hparse : parseKmx text = .ok base)
    (hlen : ¬ base.gates.length < 2 ^ 32) :
    ∃ e, afterCheck lib git messages text base K N tier circuitSource pinCommit w seed testCases =
      .error (.serialise e) := by
  unfold afterCheck
  cases hs : serialise base.gates with
  | error e => exact ⟨e, rfl⟩
  | ok bytes => exact absurd ((exists_serialise_iff hparse).mp ⟨bytes, hs⟩) hlen

/-- **The first case comes out**: `k` runs of the gates take the state of the first operands drawn to
    that of their sum. -/
def FirstCaseAdds (lib : Hashlib) (text : List Char) (base : KmxCircuit) (k n w : ℕ) : Prop :=
  ∃ seed c s t, seedBytes lib text k n = .ok seed ∧ iaddTestCases lib.shake256 w 1 seed = .ok [c] ∧
    encodePair base c.x c.y = .ok s ∧ encodePair base ((c.x + k * c.y) % 2 ^ w) c.y = .ok t ∧
    runReps base.gates k s = .ok t

/-- What the replay of the recorded case says of it. -/
theorem firstCaseAdds_iff {k n : ℕ} {c : AdderCase} {fc : FixtureCase}
    (hparse : parseKmx text = .ok base) (hpair : DeclaresPair base w)
    (hseed : seedBytes lib text k n = .ok seed)
    (hone : iaddTestCases lib.shake256 w 1 seed = .ok [c])
    (hfc : fixtureCase k (1 <<< w) (registerLayout base) (minStateBytes base) c = .ok fc) :
    (∃ s t, fromHex fc.xHex = some s ∧ fromHex fc.yHex = some t ∧ runReps base.gates k s = .ok t) ↔
      FirstCaseAdds lib text base k n w := by
  obtain ⟨s, hs, -⟩ := exists_encodePair hparse hpair c.x c.y
  obtain ⟨t, ht, -⟩ := exists_encodePair hparse hpair ((c.x + k * c.y) % 2 ^ w) c.y
  obtain rfl := Except.ok.inj ((fixtureCase_eq hs ht).symm.trans hfc)
  dsimp only
  rw [fromHex_hex, fromHex_hex]
  refine ⟨fun h => ?_, fun h => ?_⟩
  · obtain ⟨_, _, ⟨⟩, ⟨⟩, hrun⟩ := h
    exact ⟨seed, c, s, t, hseed, hone, hs, ht, hrun⟩
  · obtain ⟨seed', c', s', t', hseed', hone', hs', ht', hrun⟩ := h
    obtain rfl := Except.ok.inj (hseed.symm.trans hseed')
    obtain ⟨rfl, -⟩ := List.cons.inj (Except.ok.inj (hone.symm.trans hone'))
    obtain rfl := Except.ok.inj (hs.symm.trans hs')
    obtain rfl := Except.ok.inj (ht.symm.trans ht')
    exact ⟨s, t, rfl, rfl, hrun⟩

/-- **Nothing is raised before the check.** -/
theorem exists_build_eq (lib : Hashlib) (git : Option (List Char))
    (messages : FixtureDocument → List String) (tier circuitSource pinCommit : List Char)
    (hparse : parseKmx text = .ok base) (hpair : DeclaresPair base w) (hw : 0 < w)
    (hK : 1 ≤ K ∧ K < 2 ^ 64) (hN : 1 ≤ N ∧ N < 2 ^ 64) : ∃ seed fc testCases,
    buildIaddFixture lib git messages text K N tier circuitSource pinCommit =
      (simCrossValidate base (fc :: testCases) K.toNat >>= fun _ =>
        afterCheck lib git messages text base K N tier circuitSource pinCommit w seed
          (fc :: testCases)) ∧
    (∀ fc' ∈ fc :: testCases, Replayable base.gates K.toNat fc') ∧
    ((∃ s t, fromHex fc.xHex = some s ∧ fromHex fc.yHex = some t ∧
      runReps base.gates K.toNat s = .ok t) ↔
        FirstCaseAdds lib text base K.toNat N.toNat w) := by
  obtain ⟨seed, hseed⟩ := @exists_seedBytes K.toNat N.toNat lib text (by omega) (by omega)
  obtain ⟨c, hdrawn⟩ := @exists_firstCase lib.shake256 w hw seed
  obtain ⟨none, hnone, hone⟩ := hdrawn 0
  obtain rfl := List.length_eq_zero_iff.mp hnone
  obtain ⟨rest, -, hcases⟩ := hdrawn (N.toNat - 1)
  rw [show ((N.toNat - 1 + 1 : ℕ) : ℤ) = N by omega] at hcases
  obtain ⟨tests, htests, hreplay⟩ := exists_testCases hparse hpair K.toNat (c :: rest)
  have hcons := htests
  rw [List.mapM_cons] at hcons
  obtain ⟨fc, hfc, hcons⟩ := bind_eq_ok.mp hcons
  obtain ⟨testCases, -, hcons⟩ := bind_eq_ok.mp hcons
  obtain rfl := Except.ok.inj hcons
  exact ⟨seed, fc, testCases, buildIaddFixture_eq hK.1 hN.1 hparse (adderRegisterWidth_eq hpair _)
    hseed hcases htests, hreplay, firstCaseAdds_iff hparse hpair hseed hone hfc⟩

/-- Without a gate. -/
theorem build_of_gates_nil (hparse : parseKmx text = .ok base) (hpair : DeclaresPair base w)
    (hw : 0 < w) (hK : 1 ≤ K ∧ K < 2 ^ 64) (hN : 1 ≤ N ∧ N < 2 ^ 64) (hnil : base.gates = []) :
    buildIaddFixture lib git messages text K N tier circuitSource pinCommit =
      .error .zeroDivision := by
  obtain ⟨seed, fc, testCases, hbuild, -⟩ :=
    exists_build_eq lib git messages tier circuitSource pinCommit hparse hpair hw hK hN
  rw [hbuild, simCrossValidate_nil hnil]
  rfl

/-- **With one**, the encoder apart. -/
theorem raises_build (hparse : parseKmx text = .ok base) (hpair : DeclaresPair base w)
    (hw : 0 < w) (hK : 1 ≤ K ∧ K < 2 ^ 64) (hN : 1 ≤ N ∧ N < 2 ^ 64) (hne : base.gates ≠ []) :
    Raises (fun e => e.isFixtureError = true ∨ ∃ e', e = .serialise e')
      (buildIaddFixture lib git messages text K N tier circuitSource pinCommit) := by
  obtain ⟨seed, fc, testCases, hbuild, hreplay, -⟩ :=
    exists_build_eq lib git messages tier circuitSource pinCommit hparse hpair hw hK hN
  have hcheck := documented_simCrossValidate hne (by omega : 0 < K.toNat) hreplay
  rw [hbuild]
  refine (hcheck.mono fun e he => Or.inl he).bind fun _ _ => ?_
  by_cases hlen : base.gates.length < 2 ^ 32
  · exact (documented_afterCheck hparse hlen).mono fun e he => Or.inl he
  · obtain ⟨e, he⟩ := afterCheck_large hparse hlen
    rw [he]
    exact raises_error.mpr (Or.inr ⟨e, rfl⟩)

/-- With a gate, the exceptions are the documented ones unless a list too long for the encoder gets
    to it. -/
theorem documented_build_iff (lib : Hashlib) (git : Option (List Char))
    (messages : FixtureDocument → List String) (tier circuitSource pinCommit : List Char)
    (hparse : parseKmx text = .ok base) (hpair : DeclaresPair base w) (hw : 0 < w)
    (hK : 1 ≤ K ∧ K < 2 ^ 64) (hN : 1 ≤ N ∧ N < 2 ^ 64) (hne : base.gates ≠ []) :
    Documented (buildIaddFixture lib git messages text K N tier circuitSource pinCommit) ↔
      base.gates.length < 2 ^ 32 ∨ ¬ FirstCaseAdds lib text base K.toNat N.toNat w := by
  obtain ⟨seed, fc, testCases, hbuild, hreplay, hfirst⟩ :=
    exists_build_eq lib git messages tier circuitSource pinCommit hparse hpair hw hK hN
  have hcheck := documented_simCrossValidate hne (by omega : 0 < K.toNat) hreplay
  rw [hbuild]
  by_cases hlen : base.gates.length < 2 ^ 32
  · exact iff_of_true (hcheck.bind fun _ _ => documented_afterCheck hparse hlen) (Or.inl hlen)
  · -- the steps of one case are past the budget, so its replay decides
    have hlarge : SIM_BUDGET_GATE_STEPS < base.gates.length * K.toNat := by
      have hle := Nat.le_mul_of_pos_right base.gates.length (by omega : 0 < K.toNat)
      unfold SIM_BUDGET_GATE_STEPS
      omega
    obtain ⟨e, he⟩ := @afterCheck_large lib git messages text tier circuitSource pinCommit K N base w
      seed (fc :: testCases) hparse hlen
    rw [or_iff_right hlen, ← hfirst, ← simCrossValidate_large hlarge]
    refine ⟨fun hdoc hok => ?_, fun hfail => ?_⟩
    · rw [bind_of_ok hok, he] at hdoc
      cases hdoc _ rfl
    · exact hcheck.bind fun _ hok => absurd hok hfail

/-- **The generator fails only as documented, unless there is no gate or there are too many.**
    Without a gate it raises `ZeroDivisionError`, and only then; the registers are always encoded,
    and the replay never leaves the state. -/
theorem build_documented_iff (lib : Hashlib) (git : Option (List Char))
    (messages : FixtureDocument → List String) (tier circuitSource pinCommit : List Char)
    (hparse : parseKmx text = .ok base) (hpair : DeclaresPair base w) (hw : 0 < w)
    (hK : 1 ≤ K ∧ K < 2 ^ 64) (hN : 1 ≤ N ∧ N < 2 ^ 64) :
    (Documented (buildIaddFixture lib git messages text K N tier circuitSource pinCommit) ↔
      base.gates ≠ [] ∧
        (base.gates.length < 2 ^ 32 ∨ ¬ FirstCaseAdds lib text base K.toNat N.toNat w)) ∧
    (buildIaddFixture lib git messages text K N tier circuitSource pinCommit =
      .error .zeroDivision ↔ base.gates = []) ∧
    (∀ e, buildIaddFixture lib git messages text K N tier circuitSource pinCommit ≠
      .error (.registers e)) ∧
    ∀ e, buildIaddFixture lib git messages text K N tier circuitSource pinCommit ≠
      .error (.sim e) := by
  by_cases hnil : base.gates = []
  · have hbuild := @build_of_gates_nil lib git messages text tier circuitSource pinCommit K N base w
      hparse hpair hw hK hN hnil
    rw [hbuild]
    refine ⟨iff_of_false (fun h => ?_) fun h => h.1 hnil, iff_of_true rfl hnil, ?_, ?_⟩
    · cases h _ rfl
    · intro e h
      cases h
    · intro e h
      cases h
  · have hraises := @raises_build lib git messages text tier circuitSource pinCommit K N base w
      hparse hpair hw hK hN hnil
    have hdoc := documented_build_iff lib git messages tier circuitSource pinCommit hparse hpair hw
      hK hN hnil
    refine ⟨hdoc.trans (and_iff_right hnil).symm, iff_of_false (fun h => ?_) hnil, ?_, ?_⟩
    · rcases hraises _ h with h | ⟨_, h⟩ <;> cases h
    · intro e h
      rcases hraises _ h with h | ⟨_, h⟩ <;> cases h
    · intro e h
      rcases hraises _ h with h | ⟨_, h⟩ <;> cases h

end Build

/-! ## 6. Two circuits -/

/-- The adder of one bit has a gate. -/
theorem build_documented_iff_adder : Documented (buildAdder 3) := by
  obtain ⟨base, hparse, hadd⟩ := isAdder_adderText
  have hlen : (parseKmx adderText).map (fun c => c.gates.length) = .ok 1 := by decide +kernel
  obtain ⟨base', hbase', hone⟩ := map_eq_ok.mp hlen
  obtain rfl := Except.ok.inj (hparse.symm.trans hbase')
  exact (build_documented_iff adderLib none (fun _ => []) ['T', '0'] "iadd8.kmx".toList
    (List.replicate 40 '0') hparse hadd.declaresPair Nat.one_pos (by decide) (by decide)).1.mpr
    ⟨gates_ne_nil hparse hadd Nat.one_pos, Or.inl (by rw [hone]; decide)⟩

/-- Two registers of one qubit each, and no gate. -/
def metadataOnly : List Char :=
  "APPEND_TO_REGISTER q0 r0\nAPPEND_TO_REGISTER q1 r1\n".toList

/-- **It is accepted, and divides the budget by zero.** -/
theorem build_metadataOnly : ∃ base, parseKmx metadataOnly = .ok base ∧ DeclaresPair base 1 ∧
    ∀ lib git messages tier circuitSource pinCommit,
      buildIaddFixture lib git messages metadataOnly 1 1 tier circuitSource pinCommit =
        .error .zeroDivision ∧
      ¬ Documented (buildIaddFixture lib git messages metadataOnly 1 1 tier circuitSource
        pinCommit) := by
  have hread : (parseKmx metadataOnly).map (fun c => (registerLayout c, c.gates)) =
      .ok ([(ACC_REGISTER, [0]), (OFFSET_REGISTER, [1])], []) := by decide +kernel
  obtain ⟨base, hparse, hbase⟩ := map_eq_ok.mp hread
  obtain ⟨hlayout, hnil⟩ := Prod.mk.inj hbase
  have hpair : DeclaresPair base 1 := by
    refine ⟨[0], [1], ?_, ?_, rfl, rfl⟩
    · rw [hlayout]
      rfl
    · rw [hlayout]
      rfl
  refine ⟨base, hparse, hpair, fun lib git messages tier circuitSource pinCommit => ?_⟩
  have hbuild := @build_of_gates_nil lib git messages metadataOnly tier circuitSource pinCommit 1 1
    base 1 hparse hpair Nat.one_pos (by decide) (by decide) hnil
  refine ⟨hbuild, fun h => ?_⟩
  rw [hbuild] at h
  cases h _ rfl

end GroverTax.Python
