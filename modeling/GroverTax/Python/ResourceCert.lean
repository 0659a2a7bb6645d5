/-
  File:      GroverTax/Python/ResourceCert.lean
  Subject:   src/python/grover_tax/resource_cert.py: the counts of a .kmx text by scanning its
             lines, and the comparison with the demanded bounds.

  The two records are those of src/kickmix/src/resource.rs, field by field. `none` is an exception:
  the `ValueError` of `int`, and the `IndexError` of `code.split()[0]`, which no text raises
  (`countKmx_eq_some`).
-/
import GroverTax.Kickmix.Resource
import GroverTax.Python.Text

namespace GroverTax.Python

open GroverTax.Lib
open GroverTax.Kickmix (ResourceCounts DemandedBounds SENTINEL Meets bounds_eq_nil digitsValue)

/-! ## 1. The scan -/

def NON_CLIFFORD : List (List Char) := [['C', 'C', 'X'], ['C', 'C', 'Z']]

/-- The variables of the loop of `count_kmx`. -/
structure CountState where
  instructions : ℕ := 0
  nonClifford : ℕ := 0
  maxQubit : ℤ := -1

/-- `max(max_qubit, int(m.group(1)))`. -/
def maxNumeral (maxQubit : ℤ) (digits : List Char) : Option ℤ := do
  let n ← int digits
  return max maxQubit n

/-- One turn of the loop. -/
def countLine (word : WordClass) (st : CountState) (raw : List Char) : Option CountState :=
  let code := codeOf raw
  if code.isEmpty then some st
  else match split code with
    | [] => none
    | name :: _ => do
        let maxQubit ← (qubitMatches word false code).foldlM maxNumeral st.maxQubit
        return { instructions := st.instructions + 1
                 nonClifford := if name ∈ NON_CLIFFORD then st.nonClifford + 1 else st.nonClifford
                 maxQubit := maxQubit }

def countKmx (word : WordClass) (text : List Char) (numSamples : ℕ) : Option ResourceCounts := do
  let st ← (splitlines text).foldlM (countLine word) {}
  return { numSamples := numSamples, maxQubitCount := (st.maxQubit + 1).toNat
           maxNonCliffordCount := st.nonClifford, maxCircuitInstructions := st.instructions }

/-! ## 2. The comparison -/

def certify (counts : ResourceCounts) (sentinel : ℕ) (demanded : DemandedBounds) : List String :=
  (if counts.numSamples < demanded.numSamples then
    [s!"too few samples: {counts.numSamples} < {demanded.numSamples}"] else []) ++
  (if counts.maxQubitCount > demanded.maxQubitCount then
    [s!"qubit cap exceeded: {counts.maxQubitCount} > {demanded.maxQubitCount}"] else []) ++
  (if counts.maxNonCliffordCount > demanded.maxNonCliffordCount then
    [s!"non-Clifford cap exceeded: {counts.maxNonCliffordCount} > {demanded.maxNonCliffordCount}"]
    else []) ++
  (if counts.maxCircuitInstructions > demanded.maxCircuitInstructions then
    [s!"instruction cap exceeded: {counts.maxCircuitInstructions} > {demanded.maxCircuitInstructions}"]
    else []) ++
  (if sentinel ≠ SENTINEL then [s!"bad sentinel: {sentinel} != {SENTINEL}"] else [])

/-- **The list is empty exactly when the counts meet the bounds.** -/
theorem certify_eq_nil {counts : ResourceCounts} {sentinel : ℕ} {demanded : DemandedBounds} :
    certify counts sentinel demanded = [] ↔ Meets counts demanded ∧ sentinel = SENTINEL :=
  bounds_eq_nil

/-! ## 3. What the scan counts -/

/-- The line of code begins with `CCX` or `CCZ`. -/
def isNonClifford (code : List Char) : Bool := (split code).head?.any (· ∈ NON_CLIFFORD)

/-- The running maximum over the values of the numerals. -/
def maxFrom (m : ℤ) (numerals : List (List Char)) : ℤ :=
  numerals.foldl (fun m digits => max m (digitsValue digits : ℤ)) m

theorem maxNumeral_eq_some {m r : ℤ} {ds : List Char} :
    maxNumeral m ds = some r ↔ ds.length ≤ 4300 ∧ r = max m (digitsValue ds : ℤ) := by
  unfold maxNumeral int
  by_cases h : ds.length ≤ 4300
  · simp [h, eq_comm]
  · simp [h]

/-- The numerals raise the maximum, and each has at most 4300 digits. -/
theorem foldlM_maxNumeral (numerals : List (List Char)) (m r : ℤ) :
    numerals.foldlM maxNumeral m = some r ↔
      (∀ ds ∈ numerals, ds.length ≤ 4300) ∧ r = maxFrom m numerals := by
  induction numerals generalizing m with
  | nil => simp [maxFrom, eq_comm]
  | cons ds numerals ih =>
    simp only [List.foldlM_cons, Option.bind_eq_bind, Option.bind_eq_some_iff, maxNumeral_eq_some,
      ih, List.forall_mem_cons]
    constructor
    · intro h
      obtain ⟨_, ⟨h1, rfl⟩, h2, rfl⟩ := h
      exact ⟨⟨h1, h2⟩, rfl⟩
    · intro h
      obtain ⟨⟨h1, h2⟩, rfl⟩ := h
      exact ⟨_, ⟨h1, rfl⟩, h2, rfl⟩

/-- **One line**: its code is counted, with its numerals. -/
theorem countLine_eq_some {word : WordClass} {st st' : CountState} {raw : List Char} :
    countLine word st raw = some st' ↔
      (∀ ds ∈ (codes raw).flatMap (qubitMatches word false), ds.length ≤ 4300) ∧
        st' = ⟨st.instructions + (codes raw).length,
          st.nonClifford + (codes raw).countP isNonClifford,
          maxFrom st.maxQubit ((codes raw).flatMap (qubitMatches word false))⟩ := by
  unfold countLine codes
  dsimp only
  by_cases h : (codeOf raw).isEmpty = true
  · rw [if_pos h, if_pos h]
    exact ⟨fun e => ⟨by simp, (Option.some.inj e).symm⟩, fun e => congrArg some e.2.symm⟩
  · rw [if_neg h, if_neg h]
    cases hs : split (codeOf raw) with
    | nil => exact absurd (codeOf_isEmpty.mpr hs) h
    | cons name rest =>
      simp only [List.flatMap_singleton, Option.bind_eq_bind, Option.bind_eq_some_iff, foldlM_maxNumeral,
        Option.pure_def, Option.some_inj, List.length_singleton, List.countP_singleton,
        isNonClifford, hs, List.head?_cons, Option.any_some, decide_eq_true_eq]
      constructor
      · intro h'
        obtain ⟨r, ⟨hl, rfl⟩, rfl⟩ := h'
        refine ⟨hl, ?_⟩
        split_ifs <;> rfl
      · intro h'
        obtain ⟨hl, rfl⟩ := h'
        refine ⟨_, ⟨hl, rfl⟩, ?_⟩
        split_ifs <;> rfl

/-- **All lines.** -/
theorem foldlM_countLine {word : WordClass} (raws : List (List Char)) (st st' : CountState) :
    raws.foldlM (countLine word) st = some st' ↔
      (∀ ds ∈ (raws.flatMap codes).flatMap (qubitMatches word false), ds.length ≤ 4300) ∧
        st' = ⟨st.instructions + (raws.flatMap codes).length,
          st.nonClifford + (raws.flatMap codes).countP isNonClifford,
          maxFrom st.maxQubit ((raws.flatMap codes).flatMap (qubitMatches word false))⟩ := by
  induction raws generalizing st with
  | nil => exact ⟨fun e => ⟨by simp, (Option.some.inj e).symm⟩, fun e => congrArg some e.2.symm⟩
  | cons raw raws ih =>
    simp only [List.foldlM_cons, Option.bind_eq_bind, Option.bind_eq_some_iff, countLine_eq_some,
      ih, List.flatMap_cons, List.flatMap_append, List.length_append, List.countP_append,
      maxFrom, List.foldl_append, List.forall_mem_append]
    constructor
    · intro h
      obtain ⟨_, ⟨h1, rfl⟩, h2, rfl⟩ := h
      exact ⟨⟨h1, h2⟩, by simp only [Nat.add_assoc]⟩
    · intro h
      obtain ⟨⟨h1, h2⟩, rfl⟩ := h
      exact ⟨_, ⟨h1, rfl⟩, h2, by simp only [Nat.add_assoc]⟩

/-- The numerals of the qubits the scan finds. -/
def numerals (word : WordClass) (text : List Char) : List (List Char) :=
  (codeLines text).flatMap (qubitMatches word false)

/-- **The counts of a text**, unless a numeral is too long. -/
theorem countKmx_eq_some {word : WordClass} {text : List Char} {n : ℕ} {counts : ResourceCounts} :
    countKmx word text n = some counts ↔
      (∀ ds ∈ numerals word text, ds.length ≤ 4300) ∧
        counts = ⟨n, (maxFrom (-1) (numerals word text) + 1).toNat,
          (codeLines text).countP isNonClifford, (codeLines text).length⟩ := by
  unfold countKmx
  simp only [Option.bind_eq_bind, Option.bind_eq_some_iff, foldlM_countLine, Nat.zero_add,
    Option.pure_def, Option.some_inj]
  constructor
  · intro h'
    obtain ⟨_, ⟨h, rfl⟩, rfl⟩ := h'
    exact ⟨h, rfl⟩
  · intro h'
    obtain ⟨h, rfl⟩ := h'
    exact ⟨_, ⟨h, rfl⟩, rfl⟩

end GroverTax.Python
