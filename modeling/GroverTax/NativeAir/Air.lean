/-
  File:      GroverTax/NativeAir/Air.lean
  Subject:   The constraint system of benchmarks/stwo/iadd256/native-air/src/main.rs: what
             `NativeIaddEval::evaluate` and the three lookup components emit on one row.

  An evaluator walks one row of the trace. `EvalAtRow` is that walk: the row's cells, the column
  the next `next_trace_mask` reads, and what has been emitted so far -- polynomial constraints
  (each must vanish) and relation entries (each relation must balance). `finalize_logup_in_pairs`
  turns the entries into the framework's own columns and constraints; what those certify is the
  balance of `Balances`, so the call emits nothing here.

  `evaluate_constraints` and `evaluate_entries` say once what a row emits; nothing after them
  walks the evaluator again.
-/
import GroverTax.NativeAir.Limbs

namespace GroverTax.NativeAir

/-! ## 1. The evaluator's interface -/

inductive RangeCheckMode where
  | off | bits | lookup
  deriving DecidableEq, Repr

/-- The four relations of the program. -/
inductive RelationId where
  | state | seq18 | seq11 | seq6
  deriving DecidableEq, Repr

/-- One `RelationEntry`: `negated` records that the source passes `-multiplicity`. -/
structure RelationEntry where
  relation : RelationId
  negated : Bool
  multiplicity : M31
  values : List M31
  deriving DecidableEq

structure EvalAtRow where
  row : ℕ → M31
  col : ℕ
  constraints : List M31
  entries : List RelationEntry

namespace EvalAtRow

/-- The evaluator before a row. -/
def start (row : ℕ → M31) : EvalAtRow := ⟨row, 0, [], []⟩

def nextTraceMask (e : EvalAtRow) : M31 × EvalAtRow := (e.row e.col, { e with col := e.col + 1 })

/-- `n` calls of `next_trace_mask`, collected. -/
def nextTraceMasks : ℕ → EvalAtRow → List M31 × EvalAtRow
  | 0, e => ([], e)
  | n + 1, e =>
      let (v, e) := e.nextTraceMask
      let (vs, e) := nextTraceMasks n e
      (v :: vs, e)

def addConstraint (e : EvalAtRow) (c : M31) : EvalAtRow :=
  { e with constraints := e.constraints ++ [c] }

def addToRelation (e : EvalAtRow) (r : RelationEntry) : EvalAtRow :=
  { e with entries := e.entries ++ [r] }

end EvalAtRow

open EvalAtRow

/-! ## 2. The program's constraints -/

/-- The bits of one limb: each read, constrained to be a bit, and summed. -/
def limbBitLoop (isReal : M31) (n : ℕ) (e : EvalAtRow) : M31 × EvalAtRow :=
  (List.range n).foldl (fun (reconstructed, e) bitIdx =>
    let (bit, e) := nextTraceMask e
    let e := e.addConstraint (isReal * bit * (bit - 1))
    (reconstructed + bit * fromU32Unchecked (1 <<< bitIdx), e)) (0, e)

def addLimbBitRangeConstraints (isReal : M31) (limbs : List M31) (e : EvalAtRow) : EvalAtRow :=
  limbs.zipIdx.foldl (fun e (limb, limbIdx) =>
    let (reconstructed, e) := limbBitLoop isReal (limbBits limbIdx) e
    e.addConstraint (isReal * (limb - reconstructed))) e

def addLookupRangeConstraints (isReal : M31) (next : List M31) (e : EvalAtRow) : EvalAtRow :=
  next.zipIdx.foldl (fun e (limb, limbIdx) =>
    let (lo, e) := e.nextTraceMask
    let (hi, e) := e.nextTraceMask
    let e := e.addConstraint
      (isReal * (limb - lo - hi * fromU32Unchecked (1 <<< LOOKUP_CHUNK_BITS)))
    let e := e.addToRelation ⟨.seq18, false, isReal, [lo]⟩
    if limbIdx + 1 = LIMBS then e.addToRelation ⟨.seq6, false, isReal, [hi]⟩
    else e.addToRelation ⟨.seq11, false, isReal, [hi]⟩) e

/-- `NativeIaddEval::evaluate`. -/
def evaluate (rangeCheck : RangeCheckMode) (e : EvalAtRow) : EvalAtRow :=
  let (isReal, e) := e.nextTraceMask
  let (sampleId, e) := e.nextTraceMask
  let (repIdx, e) := e.nextTraceMask
  let (acc, e) := nextTraceMasks LIMBS e
  let (addend, e) := nextTraceMasks LIMBS e
  let (next, e) := nextTraceMasks LIMBS e
  let (carry, e) := nextTraceMasks LIMBS e
  let e := e.addConstraint (isReal * (isReal - 1))
  let e := (List.range LIMBS).foldl (fun e i =>
    e.addConstraint (isReal * carry.getD i 0 * (carry.getD i 0 - 1))) e
  let e := (List.range LIMBS).foldl (fun e i =>
    let carryIn := if i = 0 then 0 else carry.getD (i - 1) 0
    let limbRelation := acc.getD i 0 + addend.getD i 0 + carryIn - next.getD i 0
      - carry.getD i 0 * fromU32Unchecked (limbBase i)
    e.addConstraint (isReal * limbRelation)) e
  let e :=
    if rangeCheck = .bits then
      addLimbBitRangeConstraints isReal next
        (addLimbBitRangeConstraints isReal addend (addLimbBitRangeConstraints isReal acc e))
    else e
  let inputState := sampleId :: repIdx :: (acc ++ addend)
  let outputState := sampleId :: (repIdx + 1) :: (next ++ addend)
  let e := e.addToRelation ⟨.state, false, isReal, inputState⟩
  let e := e.addToRelation ⟨.state, true, isReal, outputState⟩
  if rangeCheck = .lookup then addLookupRangeConstraints isReal next e else e

/-- One row of `Seq18LookupEval`, `Seq11LookupEval` or `Seq6LookupEval`: the preprocessed value
    and the multiplicity cell. -/
def seqLookupEntry (relation : RelationId) (value multiplicity : M31) : RelationEntry :=
  ⟨relation, true, multiplicity, [value]⟩

/-! ## 3. What a row emits -/

section Emits

variable (row : ℕ → M31)

/-- The cells of a block of columns. -/
def cells (col n : ℕ) : List M31 := (List.range n).map fun i => row (col + i)

@[simp] theorem length_cells (col n : ℕ) : (cells row col n).length = n := by simp [cells]

theorem getD_cells (col : ℕ) {n i : ℕ} (h : i < n) : (cells row col n).getD i 0 = row (col + i) := by
  rw [List.getD_eq_getElem _ _ (by simpa using h)]
  simp [cells]

theorem cells_succ (col n : ℕ) : cells row col (n + 1) = row col :: cells row (col + 1) n := by
  simp only [cells, List.range_succ_eq_map, List.map_cons, List.map_map, Nat.add_zero]
  refine congrArg _ (List.map_congr_left fun i _ => ?_)
  simp only [Function.comp, Nat.succ_eq_add_one]
  congr 1
  omega

theorem nextTraceMasks_eq (n : ℕ) (e : EvalAtRow) :
    nextTraceMasks n e = (cells e.row e.col n, { e with col := e.col + n }) := by
  induction n generalizing e with
  | zero => rfl
  | succ n ih =>
    simp only [nextTraceMasks, nextTraceMask, ih, cells_succ]
    congr 2
    omega

/-- The weighted sum the bits of a limb reconstruct. -/
def bitSum (col n : ℕ) : M31 := ∑ j ∈ Finset.range n, row (col + j) * fromU32Unchecked (1 <<< j)

theorem limbBitLoop_eq (isReal : M31) (n : ℕ) (e : EvalAtRow) :
    limbBitLoop isReal n e = (bitSum e.row e.col n,
      { e with
        col := e.col + n
        constraints := e.constraints ++
          (List.range n).map fun j => isReal * e.row (e.col + j) * (e.row (e.col + j) - 1) }) := by
  induction n with
  | zero => simp [limbBitLoop, bitSum]
  | succ n ih =>
    have e1 : limbBitLoop isReal (n + 1) e =
        (let (reconstructed, e) := limbBitLoop isReal n e
         let (bit, e) := nextTraceMask e
         let e := e.addConstraint (isReal * bit * (bit - 1))
         (reconstructed + bit * fromU32Unchecked (1 <<< n), e)) := by
      simp only [limbBitLoop, List.range_succ, List.foldl_append, List.foldl_cons, List.foldl_nil]
    rw [e1, ih]
    simp [nextTraceMask, addConstraint, bitSum, Finset.sum_range_succ, List.range_succ,
      Nat.add_assoc]

/-- The constraints of `add_limb_bit_range_constraints` on limbs `limbIdx, limbIdx + 1, …` whose
    bits start at column `col`. -/
def limbBitConstraints (isReal : M31) : ℕ → ℕ → List M31 → List M31
  | _, _, [] => []
  | limbIdx, col, limb :: limbs =>
      ((List.range (limbBits limbIdx)).map fun j =>
          isReal * row (col + j) * (row (col + j) - 1)) ++
        isReal * (limb - bitSum row col (limbBits limbIdx)) ::
          limbBitConstraints isReal (limbIdx + 1) (col + limbBits limbIdx) limbs

/-- The columns the bits of `n` limbs from `limbIdx` on take. -/
def limbBitColumns (limbIdx n : ℕ) : ℕ := ∑ i ∈ Finset.range n, limbBits (limbIdx + i)

theorem limbBitFold_eq (isReal : M31) (limbs : List M31) (limbIdx : ℕ) (e : EvalAtRow) :
    (limbs.zipIdx limbIdx).foldl (fun e (limb, limbIdx) =>
        let (reconstructed, e) := limbBitLoop isReal (limbBits limbIdx) e
        e.addConstraint (isReal * (limb - reconstructed))) e =
      { e with
        col := e.col + limbBitColumns limbIdx limbs.length
        constraints := e.constraints ++
          limbBitConstraints e.row isReal limbIdx e.col limbs } := by
  induction limbs generalizing limbIdx e with
  | nil => simp [limbBitConstraints, limbBitColumns]
  | cons limb limbs ih =>
    rw [List.zipIdx_cons, List.foldl_cons, ih]
    simp only [limbBitLoop_eq, addConstraint, limbBitConstraints, List.append_assoc,
      List.singleton_append, List.length_cons, EvalAtRow.mk.injEq, true_and, and_true]
    rw [limbBitColumns, limbBitColumns, Finset.sum_range_succ']
    simp only [Nat.add_zero, Nat.add_assoc, Nat.add_comm 1]
    omega

theorem addLimbBitRangeConstraints_eq (isReal : M31) (limbs : List M31) (e : EvalAtRow) :
    addLimbBitRangeConstraints isReal limbs e =
      { e with
        col := e.col + limbBitColumns 0 limbs.length
        constraints := e.constraints ++ limbBitConstraints e.row isReal 0 e.col limbs } :=
  limbBitFold_eq isReal limbs 0 e

/-- The constraints of `add_lookup_range_constraints`, the chunks starting at column `col`. -/
def lookupConstraints (isReal : M31) : ℕ → List M31 → List M31
  | _, [] => []
  | col, limb :: limbs =>
      isReal * (limb - row col - row (col + 1) * fromU32Unchecked (1 <<< LOOKUP_CHUNK_BITS)) ::
        lookupConstraints isReal (col + 2) limbs

/-- The relation the high chunk of a limb is looked up in. -/
def highRelation (limbIdx : ℕ) : RelationId := if limbIdx + 1 = LIMBS then .seq6 else .seq11

theorem highRelation_ne (limbIdx : ℕ) :
    highRelation limbIdx ≠ .state ∧ highRelation limbIdx ≠ .seq18 := by
  unfold highRelation
  split <;> decide

def lookupHighBits (limbIdx : ℕ) : ℕ := limbBits limbIdx - LOOKUP_CHUNK_BITS

/-- The size in bits of the table of a lookup relation. -/
def tableBits : RelationId → ℕ
  | .state => 0
  | .seq18 => LOOKUP_CHUNK_BITS
  | .seq11 => LIMB_BITS - LOOKUP_CHUNK_BITS
  | .seq6 => TOP_LIMB_BITS - LOOKUP_CHUNK_BITS

/-- The high chunk of a limb is as wide as its table. -/
theorem lookupHighBits_eq (limbIdx : ℕ) :
    lookupHighBits limbIdx = tableBits (highRelation limbIdx) := by
  unfold lookupHighBits limbBits highRelation
  split <;> rfl

/-- The entries of `add_lookup_range_constraints`. -/
def lookupEntries (isReal : M31) : ℕ → ℕ → List M31 → List RelationEntry
  | _, _, [] => []
  | limbIdx, col, _ :: limbs =>
      ⟨.seq18, false, isReal, [row col]⟩ ::
        ⟨highRelation limbIdx, false, isReal, [row (col + 1)]⟩ ::
          lookupEntries isReal (limbIdx + 1) (col + 2) limbs

theorem lookupFold_eq (isReal : M31) (next : List M31) (limbIdx : ℕ) (e : EvalAtRow) :
    (next.zipIdx limbIdx).foldl (fun e (limb, limbIdx) =>
        let (lo, e) := e.nextTraceMask
        let (hi, e) := e.nextTraceMask
        let e := e.addConstraint
          (isReal * (limb - lo - hi * fromU32Unchecked (1 <<< LOOKUP_CHUNK_BITS)))
        let e := e.addToRelation ⟨.seq18, false, isReal, [lo]⟩
        if limbIdx + 1 = LIMBS then e.addToRelation ⟨.seq6, false, isReal, [hi]⟩
        else e.addToRelation ⟨.seq11, false, isReal, [hi]⟩) e =
      { e with
        col := e.col + 2 * next.length
        constraints := e.constraints ++ lookupConstraints e.row isReal e.col next
        entries := e.entries ++ lookupEntries e.row isReal limbIdx e.col next } := by
  induction next generalizing limbIdx e with
  | nil => simp [lookupConstraints, lookupEntries]
  | cons limb limbs ih =>
    rw [List.zipIdx_cons, List.foldl_cons, ih]
    simp only [nextTraceMask, addConstraint, addToRelation, lookupConstraints, lookupEntries,
      highRelation, List.length_cons]
    split <;> simp [Nat.add_assoc, Nat.mul_add, Nat.add_comm 2]

theorem addLookupRangeConstraints_eq (isReal : M31) (next : List M31) (e : EvalAtRow) :
    addLookupRangeConstraints isReal next e =
      { e with
        col := e.col + 2 * next.length
        constraints := e.constraints ++ lookupConstraints e.row isReal e.col next
        entries := e.entries ++ lookupEntries e.row isReal 0 e.col next } :=
  lookupFold_eq isReal next 0 e

theorem foldl_addConstraint (f : ℕ → M31) (l : List ℕ) (e : EvalAtRow) :
    l.foldl (fun e i => e.addConstraint (f i)) e =
      { e with constraints := e.constraints ++ l.map f } := by
  induction l generalizing e with
  | nil => simp
  | cons i l ih => rw [List.foldl_cons, ih]; simp [addConstraint]

/-! The columns of a row, under the source's names. -/

def rowIsReal : M31 := row 0
def rowSampleId : M31 := row 1
def rowRepIdx : M31 := row 2
def rowAcc : List M31 := cells row 3 LIMBS
def rowAddend : List M31 := cells row 12 LIMBS
def rowNext : List M31 := cells row 21 LIMBS
def rowCarry : List M31 := cells row 30 LIMBS

/-- The tuple a row consumes. -/
def rowInput : List M31 := rowSampleId row :: rowRepIdx row :: (rowAcc row ++ rowAddend row)

/-- The tuple a row produces. -/
def rowOutput : List M31 := rowSampleId row :: (rowRepIdx row + 1) :: (rowNext row ++ rowAddend row)

/-- The place equation of limb `i`. -/
def limbRelation (i : ℕ) : M31 :=
  (rowAcc row).getD i 0 + (rowAddend row).getD i 0 +
      (if i = 0 then 0 else (rowCarry row).getD (i - 1) 0) - (rowNext row).getD i 0
    - (rowCarry row).getD i 0 * fromU32Unchecked (limbBase i)

/-- The constraints every mode emits. -/
def compactConstraints : List M31 :=
  rowIsReal row * (rowIsReal row - 1) ::
    ((List.range LIMBS).map fun i =>
        rowIsReal row * (rowCarry row).getD i 0 * ((rowCarry row).getD i 0 - 1)) ++
      (List.range LIMBS).map fun i => rowIsReal row * limbRelation row i

/-- **The constraints of a row**, mode by mode. -/
theorem evaluate_constraints (rangeCheck : RangeCheckMode) :
    (evaluate rangeCheck (start row)).constraints = compactConstraints row ++
      match rangeCheck with
      | .off => []
      | .bits =>
          limbBitConstraints row (rowIsReal row) 0 39 (rowAcc row) ++
            limbBitConstraints row (rowIsReal row) 0 295 (rowAddend row) ++
            limbBitConstraints row (rowIsReal row) 0 551 (rowNext row)
      | .lookup => lookupConstraints row (rowIsReal row) 39 (rowNext row) := by
  have hcols : limbBitColumns 0 LIMBS = 256 := by decide
  simp only [evaluate, start, nextTraceMask, nextTraceMasks_eq, foldl_addConstraint]
  cases rangeCheck with
  | off =>
    simp [addConstraint, addToRelation, compactConstraints, limbRelation, rowIsReal, rowAcc,
      rowAddend, rowNext, rowCarry, LIMBS]
  | bits =>
    simp only [addLimbBitRangeConstraints_eq, addConstraint, addToRelation, length_cells, hcols]
    simp [compactConstraints, limbRelation, rowIsReal, rowAcc, rowAddend, rowNext, rowCarry, LIMBS]
  | lookup =>
    simp only [addLookupRangeConstraints_eq, addConstraint, addToRelation]
    simp [compactConstraints, limbRelation, rowIsReal, rowAcc, rowAddend, rowNext, rowCarry, LIMBS]

/-- **The relation entries of a row**, mode by mode. -/
theorem evaluate_entries (rangeCheck : RangeCheckMode) :
    (evaluate rangeCheck (start row)).entries =
      ⟨.state, false, rowIsReal row, rowInput row⟩ ::
        ⟨.state, true, rowIsReal row, rowOutput row⟩ ::
          if rangeCheck = .lookup then lookupEntries row (rowIsReal row) 0 39 (rowNext row)
          else [] := by
  simp only [evaluate, start, nextTraceMask, nextTraceMasks_eq, foldl_addConstraint]
  cases rangeCheck with
  | off =>
    simp [addConstraint, addToRelation, rowInput, rowOutput, rowIsReal, rowSampleId, rowRepIdx,
      rowAcc, rowAddend, rowNext, LIMBS]
  | bits =>
    simp only [addLimbBitRangeConstraints_eq, addConstraint, addToRelation]
    simp [rowInput, rowOutput, rowIsReal, rowSampleId, rowRepIdx, rowAcc, rowAddend, rowNext, LIMBS]
  | lookup =>
    simp only [addLookupRangeConstraints_eq, addConstraint, addToRelation]
    simp [rowInput, rowOutput, rowIsReal, rowSampleId, rowRepIdx, rowAcc, rowAddend, rowNext, LIMBS]

/-- The columns of a main trace. -/
def traceColumns (rangeCheck : RangeCheckMode) : ℕ :=
  3 + LIMBS * 4 + match rangeCheck with
    | .off => 0
    | .bits => 3 * ((List.range LIMBS).map limbBits).sum
    | .lookup => LIMBS * 2

/-- A row is read to its last column, and no further. -/
theorem evaluate_col (rangeCheck : RangeCheckMode) :
    (evaluate rangeCheck (start row)).col = traceColumns rangeCheck := by
  have hcols : limbBitColumns 0 LIMBS = 256 := by decide
  simp only [evaluate, start, nextTraceMask, nextTraceMasks_eq, foldl_addConstraint]
  cases rangeCheck with
  | off => rfl
  | bits =>
    simp only [addLimbBitRangeConstraints_eq, addConstraint, addToRelation, length_cells, hcols]
    rfl
  | lookup =>
    simp only [addLookupRangeConstraints_eq, addConstraint, addToRelation]
    simp [traceColumns, LIMBS]

end Emits

/-! ## 4. Traces and balance -/

/-- What a prover commits to: the rows of the main component and, in lookup mode, the
    multiplicity columns of the three lookup components. -/
structure Trace where
  rows : List (ℕ → M31)
  mult18 : ℕ → M31
  mult11 : ℕ → M31
  mult6 : ℕ → M31

/-- The entries of a lookup component whose preprocessed column holds `0 .. 2 ^ bits`. -/
def seqLookupEntries (relation : RelationId) (bits : ℕ) (mult : ℕ → M31) : List RelationEntry :=
  (List.range (2 ^ bits)).map fun v : ℕ => seqLookupEntry relation (fromU32Unchecked v) (mult v)

/-- Everything the components of `build_components` emit into the relations. -/
def Trace.entries (rangeCheck : RangeCheckMode) (t : Trace) : List RelationEntry :=
  (t.rows.flatMap fun row => (evaluate rangeCheck (start row)).entries) ++
    (if rangeCheck = .lookup then
      seqLookupEntries .seq18 LOOKUP_CHUNK_BITS t.mult18 ++
        seqLookupEntries .seq11 (LIMB_BITS - LOOKUP_CHUNK_BITS) t.mult11 ++
        seqLookupEntries .seq6 (TOP_LIMB_BITS - LOOKUP_CHUNK_BITS) t.mult6
    else [])

/-- Every constraint vanishes on every row. -/
def Trace.ConstraintsHold (rangeCheck : RangeCheckMode) (t : Trace) : Prop :=
  ∀ row ∈ t.rows, ∀ c ∈ (evaluate rangeCheck (start row)).constraints, c = 0

/-- The tuples of one relation, each as often as the entries of one sign say. -/
def tuples (relation : RelationId) (negated : Bool) (entries : List RelationEntry) :
    Multiset (List M31) :=
  ((entries.filter fun r => r.relation = relation ∧ r.negated = negated).map fun r =>
    Multiset.replicate r.multiplicity.val r.values).sum

/-- **Exact balance of a relation** against a public side: the positive entries and the public
    tuples that are subtracted are, as a multiset, the negated entries and the public tuples
    that are added. -/
def Balances (relation : RelationId) (entries : List RelationEntry)
    (added subtracted : Multiset (List M31)) : Prop :=
  tuples relation false entries + subtracted = tuples relation true entries + added

/-- The two sums of `public_boundary_sum`, as the tuples they combine: the initial states are
    added, the final states subtracted. -/
def publicBoundary (repetitions : ℕ) :
    ℕ → List TestCase → Option (List (List M31) × List (List M31))
  | _, [] => some ([], [])
  | sampleIdx, case :: cases => do
      let finalAcc ← lowRegisterFromStateHex case.yHex
      let (initial, final) ← publicBoundary repetitions (sampleIdx + 1) cases
      return (stateFromLimbs sampleIdx 0 (biguintToLimbs case.r0In) (biguintToLimbs case.r1In)
          :: initial,
        stateFromLimbs sampleIdx repetitions (biguintToLimbs finalAcc)
          (biguintToLimbs case.r1In) :: final)

/-- **An accepted proof**: every constraint vanishes, the state relation balances against the
    public boundary, the lookup relations balance on their own. -/
structure Accepted (rangeCheck : RangeCheckMode) (cases : List TestCase) (repetitions : ℕ)
    (t : Trace) : Prop where
  constraints : t.ConstraintsHold rangeCheck
  state : ∃ initial final, publicBoundary repetitions 0 cases = some (initial, final) ∧
    Balances .state (t.entries rangeCheck) initial final
  seq18 : Balances .seq18 (t.entries rangeCheck) 0 0
  seq11 : Balances .seq11 (t.entries rangeCheck) 0 0
  seq6 : Balances .seq6 (t.entries rangeCheck) 0 0

end GroverTax.NativeAir
