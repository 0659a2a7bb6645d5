/-
  File:      GroverTax/NativeAir/Interaction.lean
  Subject:   The interaction trace of benchmarks/stwo/iadd256/native-air/src/main.rs: the packed
             rows of `for_each_packed_row`, the fractions of `main_batched_fraction`, the public
             sums.

  A relation is given by its denominators, `combine relation values`; the challenges are inside
  `combine`, which the framework's `relation!` generates. Its packed form works lane by lane.

  * `packedRows_eq` -- every vector of rows is visited once, in order;
  * `entries_eq_batchTerm` -- **a fraction is the sum of the two entries `evaluate` emits in its
    place**, lane by lane and batch by batch.
-/
import GroverTax.NativeAir.Completeness

namespace GroverTax.NativeAir

open GroverTax.Lib EvalAtRow

/-! ## 1. Packed rows -/

def LANE_COUNT : ℕ := 1 <<< 4

/-- A vector of 16 lanes; its operations are those of the lanes. -/
abbrev Packed (α : Type) : Type := Fin LANE_COUNT → α

/-- The state of `for_each_packed_row`: the buffer, the next row, the calls of `f` so far. -/
structure PackState where
  laneRows : Packed Row
  rowIdx : ℕ
  calls : List (ℕ × Packed Row)

/-- The body both loops share: a row goes to its lane, a full buffer goes to `f`. -/
def packRow (s : PackState) (row : Row) : PackState :=
  let laneRows := Function.update s.laneRows ⟨s.rowIdx % LANE_COUNT, Nat.mod_lt _ (by decide)⟩ row
  if s.rowIdx % LANE_COUNT = LANE_COUNT - 1 then
    ⟨fun _ => Row.zero, s.rowIdx + 1, s.calls ++ [(s.rowIdx / LANE_COUNT, laneRows)]⟩
  else ⟨laneRows, s.rowIdx + 1, s.calls⟩

/-- The calls `for_each_packed_row` makes, vector index and rows. -/
def packedRows (cases : List TestCase) (repetitions paddedRows : ℕ) : List (ℕ × Packed Row) :=
  let s := (traceRows cases repetitions).foldl packRow ⟨fun _ => Row.zero, 0, []⟩
  ((List.replicate (paddedRows - s.rowIdx) Row.zero).foldl packRow s).calls

/-! ## 2. Fractions -/

section Fractions

variable {F : Type} [Field F] [Algebra M31 F] (combine : RelationId → List M31 → F)

structure PackedFraction (F : Type) where
  numerator : Packed F
  denominator : Packed F

/-- `Relation::combine` on packed values. -/
def combinePacked (relation : RelationId) (values : List (Packed M31)) : Packed F :=
  fun lane => combine relation (values.map fun v => v lane)

def packedState (rows : Packed Row) (state : Row → ℕ × ℕ × List ℕ × List ℕ) :
    List (Packed M31) :=
  (List.range IADD_STATE_WIDTH).map fun i lane =>
    let (sampleId, repIdx, lhs, rhs) := state (rows lane)
    fromU32Unchecked
      (if i = 0 then sampleId
       else if i = 1 then repIdx
       else if i < 2 + LIMBS then lhs.getD (i - 2) 0
       else rhs.getD (i - 2 - LIMBS) 0)

def packedIsReal (F : Type) [Field F] [Algebra M31 F] (rows : Packed Row) : Packed F :=
  fun lane => algebraMap M31 F (fromU32Unchecked (rows lane).isReal)

def packedLookupChunk (rows : Packed Row) (limbIdx : ℕ) (high : Bool) : Packed M31 := fun lane =>
  let (lo, hi) := splitLookupChunks ((rows lane).next.getD limbIdx 0)
  fromU32Unchecked (if high then hi else lo)

def stateTransitionFraction (rows : Packed Row) : PackedFraction F :=
  let inputState := packedState rows fun row => (row.sampleId, row.repIdx, row.acc, row.addend)
  let outputState := packedState rows fun row =>
    (row.sampleId, row.repIdx + 1, row.next, row.addend)
  let inputDenom := combinePacked combine .state inputState
  let outputDenom := combinePacked combine .state outputState
  ⟨packedIsReal F rows * (outputDenom - inputDenom), inputDenom * outputDenom⟩

def lookupRangeFraction (limbIdx : ℕ) (rows : Packed Row) : PackedFraction F :=
  let lo := packedLookupChunk rows limbIdx false
  let hi := packedLookupChunk rows limbIdx true
  let loDenom := combinePacked combine .seq18 [lo]
  if limbIdx + 1 = LIMBS then
    let hiDenom := combinePacked combine .seq6 [hi]
    ⟨packedIsReal F rows * (hiDenom + loDenom), loDenom * hiDenom⟩
  else
    let hiDenom := combinePacked combine .seq11 [hi]
    ⟨packedIsReal F rows * (hiDenom + loDenom), loDenom * hiDenom⟩

/-- `none` where the source has `unreachable!` or unwraps missing lookup elements. -/
def mainBatchedFraction (rangeCheck : RangeCheckMode) (batchIdx : ℕ) (rows : Packed Row) :
    Option (PackedFraction F) :=
  if batchIdx = 0 then some (stateTransitionFraction combine rows)
  else if rangeCheck = .lookup then some (lookupRangeFraction combine (batchIdx - 1) rows)
  else none

def mainInteractionBatches (rangeCheck : RangeCheckMode) : ℕ :=
  if rangeCheck = .lookup then 1 + LIMBS else 1

/-- The fraction of a relation entry. -/
def entryFraction (e : RelationEntry) : F :=
  (if e.negated then -algebraMap M31 F e.multiplicity else algebraMap M31 F e.multiplicity) /
    combine e.relation e.values

end Fractions

/-! ## 3. Every vector is visited once -/

section Visits

/-- The lanes of vector `v` of a list of rows. -/
def lanes (rows : List Row) (v : ℕ) : Packed Row := fun lane =>
  rows.getD (LANE_COUNT * v + lane) Row.zero

/-- **The buffer and the calls after `i` rows.** -/
structure Packs (rows : List Row) (s : PackState) : Prop where
  rowIdx : s.rowIdx = rows.length
  laneRows : s.laneRows = lanes rows (rows.length / LANE_COUNT)
  calls : s.calls = (List.range (rows.length / LANE_COUNT)).map fun v => (v, lanes rows v)

theorem lanes_append {rows more : List Row} {v : ℕ}
    (h : LANE_COUNT * v + LANE_COUNT ≤ rows.length) : lanes (rows ++ more) v = lanes rows v := by
  funext lane
  have := lane.isLt
  rw [lanes, lanes, List.getD_append _ _ _ _ (by omega)]

/-- **One row more.** -/
theorem packRow_packs {rows : List Row} {s : PackState} (h : Packs rows s) (row : Row) :
    Packs (rows ++ [row]) (packRow s row) := by
  obtain ⟨hidx, hlane, hcalls⟩ := h
  have hL : LANE_COUNT = 16 := rfl
  have hdiv := Nat.div_add_mod rows.length LANE_COUNT
  have hmod := Nat.mod_lt rows.length (show 0 < LANE_COUNT by decide)
  have hlen : (rows ++ [row]).length = rows.length + 1 := by simp
  -- the buffer with the new row in its lane
  have hupd : Function.update s.laneRows ⟨s.rowIdx % LANE_COUNT, Nat.mod_lt _ (by decide)⟩ row =
      lanes (rows ++ [row]) (rows.length / LANE_COUNT) := by
    funext lane
    rw [lanes]
    by_cases e : (lane : ℕ) = rows.length % LANE_COUNT
    · obtain rfl : lane = ⟨s.rowIdx % LANE_COUNT, Nat.mod_lt _ (by decide)⟩ :=
        Fin.ext (by rw [e, hidx])
      rw [Function.update_self, e, hdiv, List.getD_append_right _ _ _ _ (Nat.le_refl _),
        Nat.sub_self]
      rfl
    · rw [Function.update_of_ne fun h => e (by rw [h, hidx]), hlane, lanes]
      by_cases hlt : (lane : ℕ) < rows.length % LANE_COUNT
      · rw [List.getD_append _ _ _ _ (by omega)]
      · rw [List.getD_eq_default _ _ (by omega), List.getD_eq_default _ _ (by rw [hlen]; omega)]
  have hold : ∀ v < rows.length / LANE_COUNT, lanes (rows ++ [row]) v = lanes rows v := by
    intro v hv
    have := Nat.mul_le_mul_left LANE_COUNT (Nat.succ_le_of_lt hv)
    exact lanes_append (by rw [Nat.mul_succ] at this; omega)
  have hcalls' : s.calls = (List.range (rows.length / LANE_COUNT)).map fun v =>
      (v, lanes (rows ++ [row]) v) := by
    rw [hcalls]
    exact List.map_congr_left fun v hv => by rw [hold v (List.mem_range.mp hv)]
  unfold packRow
  rw [hupd]
  dsimp only
  by_cases hfull : s.rowIdx % LANE_COUNT = LANE_COUNT - 1
  · have hq : (rows.length + 1) / LANE_COUNT = rows.length / LANE_COUNT + 1 := by
      rw [hidx] at hfull
      simp only [hL] at hfull ⊢
      omega
    rw [if_pos hfull]
    refine ⟨by rw [hlen, hidx], ?_, ?_⟩
    · funext lane
      rw [hidx] at hfull
      rw [hlen, hq, lanes, List.getD_eq_default _ _ (by rw [hlen, Nat.mul_succ]; omega)]
    · rw [hlen, hq, List.range_succ, List.map_append, hcalls', hidx]
      rfl
  · have hq : (rows.length + 1) / LANE_COUNT = rows.length / LANE_COUNT := by
      rw [hidx] at hfull
      simp only [hL] at hfull ⊢
      omega
    rw [if_neg hfull]
    exact ⟨by rw [hlen, hidx], by rw [hlen, hq], by rw [hlen, hq, hcalls']⟩

theorem foldl_packs : ∀ (more : List Row) {rows : List Row} {s : PackState}, Packs rows s →
    Packs (rows ++ more) (more.foldl packRow s)
  | [], rows, s, h => by rwa [List.append_nil]
  | row :: more, rows, s, h => by
      have := foldl_packs more (packRow_packs h row)
      rwa [List.append_assoc] at this

/-- The rows of a trace and the padding after them. -/
def allRows (cases : List TestCase) (K paddedRows : ℕ) : List Row :=
  traceRows cases K ++ List.replicate (paddedRows - cases.length * K) Row.zero

variable {cases : List TestCase} {K n : ℕ}

theorem length_allRows (h : cases.length * K ≤ n) : (allRows cases K n).length = n := by
  rw [allRows, List.length_append, length_traceRows, List.length_replicate]
  omega

/-- A row of the trace, and the padding behind. -/
theorem getD_allRows_of_lt {i : ℕ} (hi : i < (traceRows cases K).length) :
    (allRows cases K n).getD i Row.zero = (traceRows cases K)[i] := by
  rw [allRows, List.getD_append _ _ _ _ hi, List.getD_eq_getElem _ _ hi]

theorem getD_allRows_of_ge {i : ℕ} (hi : cases.length * K ≤ i) :
    (allRows cases K n).getD i Row.zero = Row.zero := by
  rw [← length_traceRows] at hi
  rw [allRows, List.getD_append_right _ _ _ _ hi, getD_replicate_self]

/-- **Every vector is visited once, in order.** -/
theorem packedRows_eq (h : cases.length * K ≤ n) : packedRows cases K n =
    (List.range (n / LANE_COUNT)).map fun v => (v, lanes (allRows cases K n) v) := by
  have h0 : Packs [] ⟨fun _ => Row.zero, 0, []⟩ := ⟨rfl, rfl, rfl⟩
  have h1 := foldl_packs (traceRows cases K) h0
  have h2 := foldl_packs (List.replicate (n - cases.length * K) Row.zero) h1
  have hidx := h1.rowIdx
  rw [List.nil_append] at h1 h2 hidx
  rw [length_traceRows] at hidx
  unfold packedRows
  dsimp only
  rw [hidx, h2.calls]
  show (List.range ((allRows cases K n).length / LANE_COUNT)).map _ = _
  rw [length_allRows h]
  rfl

end Visits

/-! ## 4. Fractions and entries -/

section Pairs

variable {F : Type} [Field F] [Algebra M31 F] {combine : RelationId → List M31 → F}
  {rangeCheck : RangeCheckMode} {rows : Packed Row} {lane : Fin LANE_COUNT} {row : ℕ → M31} {r : Row}

/-- The fraction of a batch, as two fractions of one row. -/
def batchTerm (combine : RelationId → List M31 → F) (batchIdx : ℕ) (r : Row) : F :=
  let isReal := algebraMap M31 F (fromU32Unchecked r.isReal)
  if batchIdx = 0 then
    isReal / combine .state (stateFromLimbs r.sampleId r.repIdx r.acc r.addend) -
      isReal / combine .state (stateFromLimbs r.sampleId (r.repIdx + 1) r.next r.addend)
  else
    let (lo, hi) := splitLookupChunks (r.next.getD (batchIdx - 1) 0)
    isReal / combine .seq18 [fromU32Unchecked lo] +
      isReal / combine (highRelation (batchIdx - 1)) [fromU32Unchecked hi]

omit [Field F] [Algebra M31 F] in
theorem combinePacked_packedState (state : Row → ℕ × ℕ × List ℕ × List ℕ) :
    combinePacked combine .state (packedState rows state) lane =
      combine .state (stateFromLimbs (state (rows lane)).1 (state (rows lane)).2.1
        (state (rows lane)).2.2.1 (state (rows lane)).2.2.2) := by
  unfold combinePacked packedState stateFromLimbs
  rw [List.map_map]
  rfl

omit [Algebra M31 F] in
theorem sub_fraction {m i o : F} (h : i * o ≠ 0) : m * (o - i) / (i * o) = m / i - m / o := by
  obtain ⟨hi, ho⟩ := mul_ne_zero_iff.mp h
  field_simp

omit [Algebra M31 F] in
theorem add_fraction {m i o : F} (h : i * o ≠ 0) : m * (o + i) / (i * o) = m / i + m / o := by
  obtain ⟨hi, ho⟩ := mul_ne_zero_iff.mp h
  field_simp

/-- The fraction of a batch that the mode has. -/
def batchFraction (combine : RelationId → List M31 → F) (batchIdx : ℕ) (rows : Packed Row) :
    PackedFraction F :=
  if batchIdx = 0 then stateTransitionFraction combine rows
  else lookupRangeFraction combine (batchIdx - 1) rows

theorem mainBatchedFraction_eq {batchIdx : ℕ} (hb : batchIdx < mainInteractionBatches rangeCheck) :
    mainBatchedFraction combine rangeCheck batchIdx rows = some (batchFraction combine batchIdx rows) := by
  unfold mainBatchedFraction batchFraction
  by_cases h0 : batchIdx = 0
  · rw [if_pos h0, if_pos h0]
  · have hmode : rangeCheck = .lookup := by
      by_contra hne
      rw [mainInteractionBatches, if_neg hne] at hb
      omega
    rw [if_neg h0, if_neg h0, if_pos hmode]

/-- **The fraction written for a batch**, lane by lane. -/
theorem batchFraction_eq (batchIdx : ℕ)
    (hden : (batchFraction combine batchIdx rows).denominator lane ≠ 0) :
    (batchFraction combine batchIdx rows).numerator lane /
      (batchFraction combine batchIdx rows).denominator lane =
        batchTerm combine batchIdx (rows lane) := by
  unfold batchFraction at hden ⊢
  unfold batchTerm
  by_cases h0 : batchIdx = 0
  · rw [if_pos h0] at hden
    rw [if_pos h0, if_pos h0]
    simp only [stateTransitionFraction, Pi.mul_apply, Pi.sub_apply, packedIsReal,
      combinePacked_packedState] at hden ⊢
    exact sub_fraction hden
  · rw [if_neg h0] at hden
    rw [if_neg h0, if_neg h0, highRelation]
    unfold lookupRangeFraction at hden ⊢
    split at hden
    · rename_i htop
      simp only [htop, if_true, Pi.mul_apply, Pi.add_apply] at hden ⊢
      exact add_fraction hden
    · rename_i htop
      simp only [htop, if_false, Pi.mul_apply, Pi.add_apply] at hden ⊢
      exact add_fraction hden

/-- The chunks of limb `i` are in their two columns. -/
theorem holds_lookupCells : ∀ {next : List ℕ} {col i : ℕ}, Holds row col (lookupCells next) →
    i < next.length →
      row (col + 2 * i) = fromU32Unchecked (splitLookupChunks (next.getD i 0)).1 ∧
      row (col + 2 * i + 1) = fromU32Unchecked (splitLookupChunks (next.getD i 0)).2
  | [], _, _, _, hi => absurd hi (Nat.not_lt_zero _)
  | v :: next, col, 0, h, _ => by
      rw [lookupCells, holds_cons, holds_cons] at h
      exact ⟨h.1, h.2.1⟩
  | v :: next, col, i + 1, h, hi => by
      rw [lookupCells, holds_cons, holds_cons] at h
      have ih := holds_lookupCells h.2.2 (Nat.lt_of_succ_lt_succ hi)
      rw [show col + 1 + 1 + 2 * i = col + 2 * (i + 1) by ring] at ih
      rwa [List.getD_cons_succ]

/-- Behind a pair, the pairs are counted on. -/
theorem getElem?_pair {α : Type} (a b : α) (l : List α) (i : ℕ) :
    (a :: b :: l)[2 * (i + 1)]? = l[2 * i]? ∧ (a :: b :: l)[2 * (i + 1) + 1]? = l[2 * i + 1]? :=
  ⟨rfl, rfl⟩

/-- The entries of limb `i`. -/
theorem getElem?_lookupEntries (row : ℕ → M31) (m : M31) : ∀ (limbs : List M31)
    (limbIdx col i : ℕ), i < limbs.length →
      (lookupEntries row m limbIdx col limbs)[2 * i]? =
        some ⟨.seq18, false, m, [row (col + 2 * i)]⟩ ∧
      (lookupEntries row m limbIdx col limbs)[2 * i + 1]? =
        some ⟨highRelation (limbIdx + i), false, m, [row (col + 2 * i + 1)]⟩
  | [], _, _, _, hi => absurd hi (Nat.not_lt_zero _)
  | _ :: limbs, limbIdx, col, 0, _ => by simp [lookupEntries]
  | _ :: limbs, limbIdx, col, i + 1, hi => by
      have ih := getElem?_lookupEntries row m limbs (limbIdx + 1) (col + 2) i
        (Nat.lt_of_succ_lt_succ hi)
      rw [show col + 2 + 2 * i = col + 2 * (i + 1) by ring,
        show limbIdx + 1 + i = limbIdx + (i + 1) by ring] at ih
      rw [lookupEntries, (getElem?_pair _ _ _ i).1, (getElem?_pair _ _ _ i).2]
      exact ih

theorem length_lookupEntries (row : ℕ → M31) (m : M31) : ∀ (limbs : List M31) (limbIdx col : ℕ),
    (lookupEntries row m limbIdx col limbs).length = 2 * limbs.length
  | [], _, _ => rfl
  | _ :: limbs, limbIdx, col => by
      simp only [lookupEntries, List.length_cons, length_lookupEntries row m limbs]
      omega

/-- A trace row and the cells that hold it. -/
structure CellsOf (rangeCheck : RangeCheckMode) (row : ℕ → M31) (r : Row) : Prop where
  holds : HoldsRow row r
  next : r.next.length = LIMBS
  input : rowInput row = stateFromLimbs r.sampleId r.repIdx r.acc r.addend
  output : rowOutput row = stateFromLimbs r.sampleId (r.repIdx + 1) r.next r.addend
  chunks : rangeCheck = .lookup → Holds row 39 (lookupCells r.next)

/-- `evaluate` emits one pair of entries a batch. -/
theorem length_entries (rangeCheck : RangeCheckMode) (row : ℕ → M31) :
    (evaluate rangeCheck (start row)).entries.length = 2 * mainInteractionBatches rangeCheck := by
  rw [evaluate_entries, List.length_cons, List.length_cons, mainInteractionBatches]
  split
  · rw [length_lookupEntries, rowNext, length_cells]
    rfl
  · rfl

/-- **The pair of entries of a batch** adds up to the batch's term. -/
theorem entries_eq_batchTerm (h : CellsOf rangeCheck row r) {batchIdx : ℕ}
    (hb : batchIdx < mainInteractionBatches rangeCheck) :
    ∃ e0 e1, (evaluate rangeCheck (start row)).entries[2 * batchIdx]? = some e0 ∧
      (evaluate rangeCheck (start row)).entries[2 * batchIdx + 1]? = some e1 ∧
      entryFraction combine e0 + entryFraction combine e1 = batchTerm combine batchIdx r := by
  rw [evaluate_entries]
  cases batchIdx with
  | zero =>
    refine ⟨_, _, rfl, rfl, ?_⟩
    rw [batchTerm, if_pos rfl, ← h.input, ← h.output, ← h.holds.isReal]
    simp only [entryFraction, if_true, Bool.false_eq_true, if_false]
    rw [neg_div, sub_eq_add_neg]
  | succ i =>
    have hmode : rangeCheck = .lookup := by
      by_contra hne
      rw [mainInteractionBatches, if_neg hne] at hb
      omega
    rw [mainInteractionBatches, if_pos hmode] at hb
    have hi : i < (rowNext row).length := by
      rw [rowNext, length_cells]
      omega
    obtain ⟨h1, h2⟩ := getElem?_lookupEntries row (rowIsReal row) (rowNext row) 0 39 i hi
    obtain ⟨c1, c2⟩ := holds_lookupCells (h.chunks hmode) (i := i) (by rw [h.next]; omega)
    rw [if_pos hmode, (getElem?_pair _ _ _ i).1, (getElem?_pair _ _ _ i).2]
    refine ⟨_, _, h1, h2, ?_⟩
    rw [batchTerm, if_neg (Nat.succ_ne_zero i), ← h.holds.isReal, c1, c2, Nat.zero_add]
    rfl

end Pairs

/-! ## 5. The rows of the trace and their cells -/

section Cells

variable {rangeCheck : RangeCheckMode} {row : ℕ → M31} {s k a b n K : ℕ} {cases : List TestCase}

theorem cellsOf_additionRow (h : Holds row 0 (rowCells rangeCheck (additionRow s k a b))) :
    CellsOf rangeCheck row (additionRow s k a b) := by
  obtain ⟨hr, hrange⟩ := holds_additionRow h
  refine ⟨hr, length_biguintToLimbs (a + b), ?_, ?_, fun hmode => ?_⟩
  · rw [rowInput, hr.sampleId, hr.repIdx, hr.acc, hr.addend]
    exact (stateFromLimbs_eq _ _ _ _).symm
  · rw [rowOutput, hr.sampleId, hr.repIdx, hr.next, hr.addend]
    refine Eq.trans ?_ (stateFromLimbs_eq _ _ _ _).symm
    simp [additionRow, fromU32Unchecked]
  · subst hmode
    exact hrange

theorem zeros_eq : List.replicate LIMBS 0 = biguintToLimbs 0 := by decide

theorem lookupCells_zeros : lookupCells (List.replicate LIMBS 0) = List.replicate (2 * LIMBS) 0 := by
  decide

/-- A padding row is a row of zeros. -/
theorem cellsOf_zero (rangeCheck : RangeCheckMode) :
    CellsOf rangeCheck (fun _ => 0) Row.zero := by
  have hzero : fromU32Unchecked 0 = 0 := Nat.cast_zero
  have hcells : ∀ col, cells (fun _ => 0) col LIMBS = (List.replicate LIMBS 0).map fromU32Unchecked := by
    intro col
    rw [cells, List.map_const', List.map_replicate, List.length_range, hzero]
  refine ⟨⟨hzero.symm, hzero.symm, hzero.symm, hcells 3, hcells 12, hcells 21, hcells 30⟩,
    List.length_replicate, ?_, ?_, fun _ i _ => ?_⟩
  · rw [rowInput, rowAcc, rowAddend, hcells, hcells, Row.zero, zeros_eq, stateFromLimbs_eq]
    rfl
  · rw [rowOutput, rowNext, rowAddend, hcells, hcells, Row.zero, zeros_eq, stateFromLimbs_eq]
    rfl
  · rw [Row.zero, lookupCells_zeros, getD_replicate_self]
    exact hzero.symm

/-- **Row `i` of the table holds row `i` of the trace or of the padding.** -/
theorem generateMainTrace_cells (h : cases.length * K ≤ n) :
    ∃ cols counts, generateMainTrace cases K n rangeCheck = some (cols, counts) ∧
      CountsAre counts rangeCheck (fun r => (traceRows cases K).flatMap (rowLookups r)) ∧
      ∀ i < n, CellsOf rangeCheck (cols.row i) ((allRows cases K n).getD i Row.zero) := by
  obtain ⟨cols, counts, hrun, _, hc, hr, hpad⟩ := @generateMainTrace_spec rangeCheck n cases K h
  refine ⟨cols, counts, hrun, hc, fun i hi => ?_⟩
  rw [allRows]
  by_cases hreal : i < (traceRows cases K).length
  · have hp : ((traceRows cases K).get ⟨i, hreal⟩, i) ∈ (traceRows cases K).zipIdx :=
      List.mk_mem_zipIdx_iff_getElem?.mpr (List.getElem?_eq_getElem hreal)
    obtain ⟨s, k, a, b, e⟩ := mem_traceRows (List.get_mem (traceRows cases K) ⟨i, hreal⟩)
    rw [List.getD_append _ _ _ _ hreal, List.getD_eq_getElem _ _ hreal]
    show CellsOf rangeCheck (cols.row i) ((traceRows cases K).get ⟨i, hreal⟩)
    rw [e]
    refine cellsOf_additionRow fun c _ => ?_
    rw [hr _ hp, Nat.zero_add, e]
  · rw [List.getD_append_right _ _ _ _ (Nat.le_of_not_lt hreal), getD_replicate_self,
      hpad i (by rw [length_traceRows] at hreal; omega)]
    exact cellsOf_zero rangeCheck

end Cells

end GroverTax.NativeAir
