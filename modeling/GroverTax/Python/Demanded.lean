/-
  File:      GroverTax/Python/Demanded.lean
  Subject:   The bounds a v0.3-iadd document demands, and the circuit it was built from: the check of
             src/python/grover_tax/resource_cert.py, `apples-verify --fixture`.

  The generator multiplies counts of the gate list by the repetitions; the check counts the lines of
  code of the file, metadata included.

  * `violations` -- the check; `scan_items` -- the qubits it finds are those of the circuit;
  * **`violations_iff`** -- a circuit meets the bounds of its own document exactly when its metadata
    lines are at most `K - 1` times its gate lines: never for one repetition.
-/
import GroverTax.Python.IaddFixture
import GroverTax.Python.ResourceCert

namespace GroverTax.Python

open GroverTax.Lib GroverTax.Gtv1
open GroverTax.Kickmix (DemandedBounds SENTINEL Meets Target q_notMem_digits q_notMem_name)

/-! ## 1. The check -/

/-- `_demanded_from_fixture`. -/
def demandedFromFixture (fixture : FixtureDocument) : DemandedBounds where
  numSamples := fixture.demandedNumSamples
  maxQubitCount := fixture.demandedMaxQubitCount
  maxNonCliffordCount := fixture.demandedMaxNonCliffordCount
  maxCircuitInstructions := fixture.demandedMaxCircuitInstructions

/-- The violations `main` finds, `text` being the .kmx file; `none` is an exception of the scan. -/
def violations (word : WordClass) (fixture : FixtureDocument) (text : List Char)
    (numSamples : ℕ) : Option (List String) := do
  let counts ← countKmx word (universalNewlines text) numSamples
  return certify counts SENTINEL (demandedFromFixture fixture)

def CLASSICAL_GATES : List (List Char) := [['X'], ['C', 'X'], ['C', 'C', 'X']]

def METADATA_GATES : List (List Char) := [registerName, appendName]

/-- The line of code begins with the name of a gate. -/
def isGateLine (code : List Char) : Bool := (split code).head?.any (· ∈ CLASSICAL_GATES)

def isMetadataLine (code : List Char) : Bool := (split code).head?.any (· ∈ METADATA_GATES)

/-! ## 2. The scan of a text that parses -/

section Scan

variable {word : WordClass}

theorem scan_target {token : List Char} {t : Target} (h : target token = some t) :
    (∀ ds ∈ qubitMatches word false token, ds.length ≤ 4300) ∧
      ∀ m, maxFrom m (qubitMatches word false token) = maxTarget m t := by
  obtain ⟨ds, hd, hlen, ⟨rfl, rfl⟩ | ⟨rfl, rfl⟩ | ⟨rfl, rfl⟩⟩ := target_eq_some.mp h
  · rw [qubitMatches_digits hd.1 hd.2]
    exact ⟨List.forall_mem_singleton.mpr hlen, fun m => rfl⟩
  · rw [qubitMatches_of_notMem (by simp [q_notMem_digits hd])]
    exact ⟨List.forall_mem_nil _, fun m => rfl⟩
  · rw [qubitMatches_of_notMem (by simp [q_notMem_digits hd])]
    exact ⟨List.forall_mem_nil _, fun m => rfl⟩

theorem maxFrom_append (m : ℤ) (a b : List (List Char)) :
    maxFrom m (a ++ b) = maxFrom (maxFrom m a) b := List.foldl_append

theorem scan_targets : ∀ {tokens : List (List Char)} {ts : List Target},
    tokens.mapM target = some ts →
      (∀ ds ∈ tokens.flatMap (qubitMatches word false), ds.length ≤ 4300) ∧
        ∀ m, maxFrom m (tokens.flatMap (qubitMatches word false)) = ts.foldl maxTarget m
  | [], _, h => by
      cases h
      exact ⟨List.forall_mem_nil _, fun m => rfl⟩
  | token :: tokens, ts, h => by
      simp only [List.mapM_cons, Option.bind_eq_bind, Option.bind_eq_some_iff, Option.pure_def,
        Option.some_inj] at h
      obtain ⟨t, ht, ts', hts, rfl⟩ := h
      obtain ⟨hlen, hmax⟩ := @scan_target word _ _ ht
      obtain ⟨hlen', hmax'⟩ := scan_targets hts
      refine ⟨?_, fun m => ?_⟩
      · rw [List.flatMap_cons]
        exact List.forall_mem_append.mpr ⟨hlen, hlen'⟩
      · rw [List.flatMap_cons, maxFrom_append, hmax, hmax', List.foldl_cons]

/-- On a line the name has no `q`, and the rest are the targets. -/
theorem scan_line {code : List Char} {item : Item} (h : Reads (split code) item) :
    (∀ ds ∈ qubitMatches word false code, ds.length ≤ 4300) ∧
      ∀ m, maxFrom m (qubitMatches word false code) = item.targets.foldl maxTarget m := by
  obtain ⟨rest, hsplit, hts⟩ := h.shape
  have e : qubitMatches word false code = rest.flatMap (qubitMatches word false) := by
    rw [qubitMatches_eq word.space code, ← split, hsplit, List.flatMap_cons,
      qubitMatches_of_notMem (q_notMem_name item.isValidName_name), List.nil_append]
  rw [e]
  exact scan_targets hts

/-- **The scan finds the qubits of the circuit.** -/
theorem scan_items {codes : List (List Char)} {items : List Item}
    (h : List.Forall₂ (fun code item => Reads (split code) item) codes items) :
    (∀ ds ∈ codes.flatMap (qubitMatches word false), ds.length ≤ 4300) ∧
      ∀ m, maxFrom m (codes.flatMap (qubitMatches word false)) =
        (items.flatMap Item.targets).foldl maxTarget m := by
  induction h with
  | nil => exact ⟨List.forall_mem_nil _, fun m => rfl⟩
  | cons hr _ ih =>
    obtain ⟨hlen, hmax⟩ := @scan_line word _ _ hr
    refine ⟨?_, fun m => ?_⟩
    · rw [List.flatMap_cons]
      exact List.forall_mem_append.mpr ⟨hlen, ih.1⟩
    · rw [List.flatMap_cons, maxFrom_append, hmax, ih.2, List.flatMap_cons, List.foldl_append]

end Scan

/-! ## 3. The lines of a text that parses -/

section Lines

variable {code : List Char} {item : Item}

theorem isNonClifford_of_reads (h : Reads (split code) item) :
    isNonClifford code = item.gate.any (·.opcode = OP_TOFFOLI) := by
  obtain ⟨rest, hsplit, -⟩ := h.shape
  rw [isNonClifford, hsplit]
  cases item <;> rfl

theorem isGateLine_of_reads (h : Reads (split code) item) :
    isGateLine code = item.gate.isSome ∧ isMetadataLine code = !item.gate.isSome := by
  obtain ⟨rest, hsplit, -⟩ := h.shape
  rw [isGateLine, isMetadataLine, hsplit]
  cases item <;> exact ⟨rfl, rfl⟩

/-- **The lines by kind**: those of the Toffoli gates, of the gates, and of the metadata. -/
theorem counts_of_reads {codes : List (List Char)} {items : List Item}
    (h : List.Forall₂ (fun code item => Reads (split code) item) codes items) :
    codes.countP isNonClifford = (items.filterMap Item.gate).countP (·.opcode = OP_TOFFOLI) ∧
      codes.countP isGateLine = (items.filterMap Item.gate).length ∧
      codes.length = codes.countP isGateLine + codes.countP isMetadataLine := by
  induction h with
  | nil => exact ⟨rfl, rfl, rfl⟩
  | @cons code item codes items hr _ ih =>
    obtain ⟨h1, h2, h3⟩ := ih
    obtain ⟨hg, hm⟩ := isGateLine_of_reads hr
    have hn := isNonClifford_of_reads hr
    simp only [List.countP_cons, List.length_cons, List.filterMap_cons, hg, hm, hn, h1, h3]
    cases item.gate with
    | none => exact ⟨by simp, by simp [h2], by simp; omega⟩
    | some g => exact ⟨by simp [List.countP_cons], by simp [h2], by simp; omega⟩

end Lines

/-! ## 4. When a circuit meets the bounds of its document -/

theorem violations_eq_nil {word : WordClass} {d : FixtureDocument} {text : List Char} {n : ℕ} :
    violations word d text n = some [] ↔
      (∀ ds ∈ numerals word text, ds.length ≤ 4300) ∧
        Meets ⟨n, (maxFrom (-1) (numerals word text) + 1).toNat,
          (codeLines text).countP isNonClifford, (codeLines text).length⟩
          (demandedFromFixture d) := by
  have hnum : numerals word (universalNewlines text) = numerals word text := by
    rw [numerals, codeLines_universalNewlines]
    rfl
  unfold violations
  simp only [Option.bind_eq_bind, Option.bind_eq_some_iff, countKmx_eq_some, Option.pure_def,
    Option.some_inj, certify_eq_nil, and_true, hnum, codeLines_universalNewlines]
  constructor
  · intro h
    obtain ⟨_, ⟨hlen, rfl⟩, hm⟩ := h
    exact ⟨hlen, hm⟩
  · intro h
    obtain ⟨hlen, hm⟩ := h
    exact ⟨_, ⟨hlen, rfl⟩, hm⟩

/-- **A circuit meets the bounds of its own document exactly when it has few metadata lines.** The
    samples, the qubits and the Toffoli gates never exceed theirs. -/
theorem violations_iff (word : WordClass) {lib : Hashlib} {git : Option (List Char)}
    {messages : FixtureDocument → List String} {text tier circuitSource pinCommit : List Char}
    {repetitions nSamples : ℤ} {d : FixtureDocument}
    (h : buildIaddFixture lib git messages text repetitions nSamples tier circuitSource pinCommit =
      .ok d) : violations word d text nSamples.toNat = some [] ↔
        (codeLines text).countP isMetadataLine ≤
          (repetitions.toNat - 1) * (codeLines text).countP isGateLine := by
  obtain ⟨hk, -, base, hbase, hsamples, hqubits, hcliff, hinsts⟩ := demanded_of_build h
  obtain ⟨items, hitems, rfl⟩ := parseKmx_eq_ok.mp hbase
  obtain ⟨htoffoli, hgates, hlines⟩ := counts_of_reads hitems
  obtain ⟨hlen, hmax⟩ := @scan_items word _ _ hitems
  obtain ⟨k, hrep⟩ : ∃ k, repetitions.toNat = k + 1 := ⟨repetitions.toNat - 1, by omega⟩
  rw [circuitOf_eq] at hqubits hcliff hinsts
  dsimp only at hqubits hcliff hinsts
  rw [← htoffoli] at hcliff
  rw [← hgates] at hinsts
  rw [violations_eq_nil, hrep, Nat.add_sub_cancel]
  rw [hrep] at hcliff hinsts
  constructor
  · intro h'
    obtain ⟨-, hm⟩ := h'
    have hle : (codeLines text).length ≤ d.demandedMaxCircuitInstructions :=
      hm.maxCircuitInstructions
    rw [hinsts, hlines, Nat.mul_succ, Nat.mul_comm] at hle
    omega
  · intro hle
    refine ⟨hlen, hsamples.le, ?_, ?_, ?_⟩
    · show (maxFrom (-1) (numerals word text) + 1).toNat ≤ d.demandedMaxQubitCount
      rw [hqubits, numerals, hmax]
    · show (codeLines text).countP isNonClifford ≤ d.demandedMaxNonCliffordCount
      rw [hcliff]
      exact Nat.le_mul_of_pos_right _ k.succ_pos
    · show (codeLines text).length ≤ d.demandedMaxCircuitInstructions
      rw [hinsts, hlines, Nat.mul_succ, Nat.mul_comm]
      omega

/-- An adder of one bit: `r0` is `q0`, `r1` is `q1`. -/
def adderText : List Char :=
  "APPEND_TO_REGISTER q0 r0\nAPPEND_TO_REGISTER q1 r1\nCX q1 q0".toList

/-- A digest from the number its hexadecimal text writes. -/
def digestOf (n : ℕ) : List UInt8 := (bytesLe 32 n).reverse

/-- The values `hashlib` has on the inputs of the two runs below. Of the output of SHAKE-256 they
    read two bytes. -/
def adderLib : Hashlib where
  sha256 := fun data =>
    let source := digestOf 0xe5b51adf1eb8d2b89bf01025201b440e5855ebacb7e2f053236b3b323a2d1859
    if data = sourceBytes adderText then source
    else if data = SEED ++ source ++ bytesLe 8 1 ++ bytesLe 8 1 then
      digestOf 0xbe95e443d555f54cd8f53ce294b017d934b0dda841941954ca3da25d33cfd92d
    else if data = SEED ++ source ++ bytesLe 8 3 ++ bytesLe 8 1 then
      digestOf 0xfa8fc79f17fc949da5cad97a902e703e8a558564054336e918bd582722c95b23
    else digestOf 0x7a4bb0a5612c243a2c61da5061745d607a367495cfb0d1db8acaeded9a88c783
  blake2s := fun _ => digestOf 0x8a440a95416aaa7fe5010d675322480eaf852ed1aabdc3cc17f39e7261155741
  shake256 := fun seed n =>
    (if seed = digestOf 0xbe95e443d555f54cd8f53ce294b017d934b0dda841941954ca3da25d33cfd92d
      then [0xC6, 0x18] else [0x89, 0x1D]) ++ List.replicate (n - 2) 0

/-- The generator on this adder, with one sample. -/
def buildAdder (repetitions : ℤ) : Except BuildError FixtureDocument :=
  buildIaddFixture adderLib none (fun _ => []) adderText repetitions 1 ['T', '0']
    "iadd8.kmx".toList (List.replicate 40 '0')

theorem violations_iff_thrice : ∃ d, buildAdder 3 = .ok d ∧ ∀ word,
    (violations word d adderText 1 = some [] ↔
      (codeLines adderText).countP isMetadataLine ≤ 2 * (codeLines adderText).countP isGateLine) := by
  have hok : (buildAdder 3).isOk = true := by decide +kernel
  obtain ⟨d, hd⟩ : ∃ d, buildAdder 3 = .ok d := by
    cases e : buildAdder 3 with
    | ok d => exact ⟨d, rfl⟩
    | error e' =>
      rw [e] at hok
      cases hok
  exact ⟨d, hd, fun word => violations_iff word hd⟩

/-- **Run once, it exceeds its own bounds**: three lines of code, one instruction demanded. -/
theorem adder_exceeds : ∃ d, buildAdder 1 = .ok d ∧
    d.demandedMaxCircuitInstructions = 1 ∧ ∀ word, violations word d adderText 1 ≠ some [] := by
  have hmax : (buildAdder 1).toOption.map FixtureDocument.demandedMaxCircuitInstructions = some 1 := by
    decide +kernel
  obtain ⟨d, hd, hone⟩ := Option.map_eq_some_iff.mp hmax
  refine ⟨d, toOption_eq_some.mp hd, hone, fun word h => ?_⟩
  have hle : (codeLines adderText).length ≤ d.demandedMaxCircuitInstructions :=
    (violations_eq_nil.mp h).2.maxCircuitInstructions
  rw [hone] at hle
  exact absurd hle (by decide +kernel)

end GroverTax.Python
