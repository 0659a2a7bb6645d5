/-
  File:      GroverTax/Kickmix/Resource.lean
  Subject:   Resource certification, src/kickmix/src/resource.rs: the counts of a circuit, the
             public outputs, and the comparison with the demanded bounds.
-/
import GroverTax.Kickmix.Syntax

namespace GroverTax.Kickmix

/-- The upstream sentinel. -/
def SENTINEL : ℕ := 42

structure ResourceCounts where
  numSamples : ℕ
  maxQubitCount : ℕ
  maxNonCliffordCount : ℕ
  maxCircuitInstructions : ℕ
  deriving DecidableEq, Repr

structure DemandedBounds where
  numSamples : ℕ
  maxQubitCount : ℕ
  maxNonCliffordCount : ℕ
  maxCircuitInstructions : ℕ
  deriving DecidableEq, Repr

inductive Violation where
  | tooFewSamples (committed demanded : ℕ)
  | qubitCapExceeded (committed demanded : ℕ)
  | nonCliffordCapExceeded (committed demanded : ℕ)
  | instructionCapExceeded (committed demanded : ℕ)
  | badSentinel (committed : ℕ)
  deriving DecidableEq, Repr

def isNonClifford (inst : Instruction) : Bool := inst.name = "CCX" || inst.name = "CCZ"

/-- The counts are `usize` values, and a `u64` holds them. -/
def countResources (circuit : Circuit) (numSamples : ℕ) : ResourceCounts where
  numSamples := numSamples
  maxQubitCount := circuit.numQubits
  maxNonCliffordCount := (circuit.instructions.filter isNonClifford).length
  maxCircuitInstructions := circuit.instructions.length

def publicOutputs (counts : ResourceCounts) : List ℕ :=
  [counts.numSamples, counts.maxQubitCount, counts.maxNonCliffordCount,
    counts.maxCircuitInstructions, SENTINEL]

def certify (counts : ResourceCounts) (sentinel : ℕ) (demanded : DemandedBounds) :
    List Violation :=
  (if counts.numSamples < demanded.numSamples then
    [.tooFewSamples counts.numSamples demanded.numSamples] else []) ++
  (if counts.maxQubitCount > demanded.maxQubitCount then
    [.qubitCapExceeded counts.maxQubitCount demanded.maxQubitCount] else []) ++
  (if counts.maxNonCliffordCount > demanded.maxNonCliffordCount then
    [.nonCliffordCapExceeded counts.maxNonCliffordCount demanded.maxNonCliffordCount] else []) ++
  (if counts.maxCircuitInstructions > demanded.maxCircuitInstructions then
    [.instructionCapExceeded counts.maxCircuitInstructions demanded.maxCircuitInstructions]
    else []) ++
  (if sentinel ≠ SENTINEL then [.badSentinel sentinel] else [])

/-- The counts are within the demanded bounds. -/
structure Meets (counts : ResourceCounts) (demanded : DemandedBounds) : Prop where
  numSamples : demanded.numSamples ≤ counts.numSamples
  maxQubitCount : counts.maxQubitCount ≤ demanded.maxQubitCount
  maxNonCliffordCount : counts.maxNonCliffordCount ≤ demanded.maxNonCliffordCount
  maxCircuitInstructions : counts.maxCircuitInstructions ≤ demanded.maxCircuitInstructions

/-- A list with an entry for each bound that is not met. -/
theorem bounds_eq_nil {V : Type*} {a b c d e : V} {counts : ResourceCounts} {sentinel : ℕ}
    {demanded : DemandedBounds} :
    (if counts.numSamples < demanded.numSamples then [a] else []) ++
        (if counts.maxQubitCount > demanded.maxQubitCount then [b] else []) ++
        (if counts.maxNonCliffordCount > demanded.maxNonCliffordCount then [c] else []) ++
        (if counts.maxCircuitInstructions > demanded.maxCircuitInstructions then [d] else []) ++
        (if sentinel ≠ SENTINEL then [e] else []) = [] ↔
      Meets counts demanded ∧ sentinel = SENTINEL := by
  simp only [List.append_eq_nil_iff, ite_eq_right_iff, imp_false, List.cons_ne_nil, not_lt,
    gt_iff_lt, ne_eq, not_not]
  refine ⟨fun h => ?_, fun h => ?_⟩
  · obtain ⟨⟨⟨⟨h1, h2⟩, h3⟩, h4⟩, h5⟩ := h
    exact ⟨⟨h1, h2, h3, h4⟩, h5⟩
  · obtain ⟨⟨h1, h2, h3, h4⟩, h5⟩ := h
    exact ⟨⟨⟨⟨h1, h2⟩, h3⟩, h4⟩, h5⟩

/-- **Certification finds nothing exactly when the counts meet the bounds.** -/
theorem certify_eq_nil {counts : ResourceCounts} {sentinel : ℕ} {demanded : DemandedBounds} :
    certify counts sentinel demanded = [] ↔ Meets counts demanded ∧ sentinel = SENTINEL :=
  bounds_eq_nil

/-- The bound a violation reports is exceeded, by the counts it reports. -/
def Violated (counts : ResourceCounts) (demanded : DemandedBounds) : Violation → Prop
  | .tooFewSamples a b => a = counts.numSamples ∧ b = demanded.numSamples ∧ a < b
  | .qubitCapExceeded a b => a = counts.maxQubitCount ∧ b = demanded.maxQubitCount ∧ b < a
  | .nonCliffordCapExceeded a b =>
      a = counts.maxNonCliffordCount ∧ b = demanded.maxNonCliffordCount ∧ b < a
  | .instructionCapExceeded a b =>
      a = counts.maxCircuitInstructions ∧ b = demanded.maxCircuitInstructions ∧ b < a
  | .badSentinel _ => False

theorem mem_ite_singleton {α : Type*} {p : Prop} [Decidable p] {a b : α} :
    a ∈ (if p then [b] else []) ↔ p ∧ a = b := by
  split_ifs with h <;> simp [h]

/-- **The list names the violated bounds**, each once. -/
theorem mem_certify {counts : ResourceCounts} {demanded : DemandedBounds} {v : Violation} :
    v ∈ certify counts SENTINEL demanded ↔ Violated counts demanded v := by
  unfold certify
  simp only [List.mem_append, mem_ite_singleton, ne_eq, not_true_eq_false, false_and, or_false]
  cases v with
  | tooFewSamples a b =>
    simp only [Violation.tooFewSamples.injEq, reduceCtorEq, and_false, or_false]
    exact ⟨fun ⟨h, ha, hb⟩ => ⟨ha, hb, by omega⟩, fun ⟨ha, hb, h⟩ => ⟨by omega, ha, hb⟩⟩
  | qubitCapExceeded a b =>
    simp only [Violation.qubitCapExceeded.injEq, reduceCtorEq, and_false, false_or, or_false]
    exact ⟨fun ⟨h, ha, hb⟩ => ⟨ha, hb, by omega⟩, fun ⟨ha, hb, h⟩ => ⟨by omega, ha, hb⟩⟩
  | nonCliffordCapExceeded a b =>
    simp only [Violation.nonCliffordCapExceeded.injEq, reduceCtorEq, and_false, false_or, or_false]
    exact ⟨fun ⟨h, ha, hb⟩ => ⟨ha, hb, by omega⟩, fun ⟨ha, hb, h⟩ => ⟨by omega, ha, hb⟩⟩
  | instructionCapExceeded a b =>
    simp only [Violation.instructionCapExceeded.injEq, reduceCtorEq, and_false, false_or]
    exact ⟨fun ⟨h, ha, hb⟩ => ⟨ha, hb, by omega⟩, fun ⟨ha, hb, h⟩ => ⟨by omega, ha, hb⟩⟩
  | badSentinel a =>
    simp only [reduceCtorEq, and_false, or_false, Violated]

theorem nodup_certify (counts : ResourceCounts) (demanded : DemandedBounds) :
    (certify counts SENTINEL demanded).Nodup := by
  unfold certify
  split_ifs <;> simp

end GroverTax.Kickmix
