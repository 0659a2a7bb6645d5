/-
  File:      GroverTax/NativeAir/Completeness.lean
  Subject:   The rows of `generate_main_trace` against the constraints of
             `NativeIaddEval::evaluate`, in every range-check mode.

  * `Holds` -- a block of columns holds a list of values; `Holds.cells` reads it back;
  * `limbBitConstraints_holds`, `lookupConstraints_holds` -- the cells of the two range checks
    satisfy their constraints, column by column;
  * `evaluate_additionRow`, `evaluate_padding` -- the rows of the trace, and those after them;
  * `mainTrace_complete` -- the whole trace.
-/
import GroverTax.NativeAir.Honest
import GroverTax.NativeAir.MainTrace

namespace GroverTax.NativeAir

open GroverTax.Lib EvalAtRow

/-! ## 1. Blocks of columns -/

section Blocks

variable {row : ℕ → M31} {col : ℕ} {values xs ys : List ℕ}

/-- The row holds `values` from column `col` on. -/
def Holds (row : ℕ → M31) (col : ℕ) (values : List ℕ) : Prop :=
  ∀ i < values.length, row (col + i) = fromU32Unchecked (values.getD i 0)

theorem holds_append : Holds row col (xs ++ ys) ↔
    Holds row col xs ∧ Holds row (col + xs.length) ys := by
  constructor
  · intro h
    refine ⟨fun i hi => ?_, fun i hi => ?_⟩
    · rw [h i (by rw [List.length_append]; omega), List.getD_append _ _ _ _ hi]
    · rw [Nat.add_assoc, h _ (by rw [List.length_append]; omega),
        List.getD_append_right _ _ _ _ (Nat.le_add_right _ _), Nat.add_sub_cancel_left]
  · rintro ⟨hx, hy⟩ i hi
    by_cases hlt : i < xs.length
    · rw [hx i hlt, List.getD_append _ _ _ _ hlt]
    · rw [List.length_append] at hi
      have := hy (i - xs.length) (by omega)
      rw [Nat.add_assoc, Nat.add_sub_cancel' (Nat.le_of_not_lt hlt)] at this
      rw [this, List.getD_append_right _ _ _ _ (Nat.le_of_not_lt hlt)]

theorem holds_cons {v : ℕ} : Holds row col (v :: ys) ↔
    row col = fromU32Unchecked v ∧ Holds row (col + 1) ys := by
  rw [← List.singleton_append, holds_append]
  refine and_congr ⟨fun h => h 0 Nat.one_pos, fun h i hi => ?_⟩ Iff.rfl
  obtain rfl : i = 0 := Nat.lt_one_iff.mp hi
  exact h

theorem Holds.cells (h : Holds row col values) :
    cells row col values.length = values.map fromU32Unchecked := by
  refine ext_getD 0 (by simp) fun i hi => ?_
  rw [length_cells] at hi
  rw [getD_cells _ _ hi, h i hi, List.getD_eq_getElem _ _ hi,
    List.getD_eq_getElem _ _ (by simpa using hi), List.getElem_map]

/-- The bits of limbs below their bases satisfy their constraints. -/
theorem limbBitConstraints_holds : ∀ (limbs : List ℕ) (limbIdx : ℕ) {col : ℕ},
    Holds row col (limbBitCells limbIdx limbs) →
    (∀ p ∈ limbs.zipIdx limbIdx, p.1 < limbBase p.2) →
      ∀ c ∈ limbBitConstraints row 1 limbIdx col (limbs.map fromU32Unchecked), c = 0
  | [], _, _, _, _ => by simp [limbBitConstraints]
  | limb :: limbs, limbIdx, col, h, hlt => by
      rw [limbBitCells, holds_append, List.length_map, List.length_range] at h
      rw [List.zipIdx_cons, List.forall_mem_cons] at hlt
      have ih := limbBitConstraints_holds limbs (limbIdx + 1) h.2 hlt.2
      have hrow : ∀ j < limbBits limbIdx,
          row (col + j) = fromU32Unchecked (limb.testBit j).toNat := by
        intro j hj
        rw [h.1 j (by simpa using hj), List.getD_eq_getElem _ _ (by simpa using hj),
          List.getElem_map, List.getElem_range, Nat.toNat_testBit, Nat.shiftRight_eq_div_pow,
          Nat.and_one_is_mod]
      have hlimb : limb % 2 ^ limbBits limbIdx = limb :=
        Nat.mod_eq_of_lt (limbBase_eq limbIdx ▸ hlt.1)
      exact limbBitConstraints_cons hrow (by rw [hlimb]; rfl) ih

/-- The chunks of limbs satisfy their constraints. -/
theorem lookupConstraints_holds : ∀ (next : List ℕ) {col : ℕ}, Holds row col (lookupCells next) →
    ∀ c ∈ lookupConstraints row 1 col (next.map fromU32Unchecked), c = 0
  | [], _, _ => by simp [lookupConstraints]
  | limb :: next, col, h => by
      rw [lookupCells, holds_cons, holds_cons] at h
      simp only [List.map_cons, lookupConstraints, List.forall_mem_cons, one_mul]
      refine ⟨?_, lookupConstraints_holds next h.2.2⟩
      have e := congrArg (Nat.cast (R := M31)) (splitLookupChunks_eq limb)
      rw [h.1, h.2.1, sub_sub, sub_eq_zero, fromU32Unchecked, fromU32Unchecked, fromU32Unchecked,
        fromU32Unchecked, Nat.one_shiftLeft]
      rw [← e]
      push_cast
      rfl

end Blocks

/-! ## 2. Rows -/

section Rows

variable {row : ℕ → M31} {s k a b : ℕ} {rangeCheck : RangeCheckMode}

/-- The blocks of a row, at the columns `evaluate` reads. -/
structure HoldsRow (row : ℕ → M31) (r : Row) : Prop where
  isReal : rowIsReal row = fromU32Unchecked r.isReal
  sampleId : rowSampleId row = fromU32Unchecked r.sampleId
  repIdx : rowRepIdx row = fromU32Unchecked r.repIdx
  acc : rowAcc row = r.acc.map fromU32Unchecked
  addend : rowAddend row = r.addend.map fromU32Unchecked
  next : rowNext row = r.next.map fromU32Unchecked
  carry : rowCarry row = r.carry.map fromU32Unchecked

/-- The cells of a row that its mode adds, from column 39 on. -/
def rangeCells (rangeCheck : RangeCheckMode) (row : Row) : List ℕ :=
  match rangeCheck with
  | .off => []
  | .bits => limbBitCells 0 row.acc ++ limbBitCells 0 row.addend ++ limbBitCells 0 row.next
  | .lookup => lookupCells row.next

/-- **What was written is what is read.** -/
theorem holds_additionRow (h : Holds row 0 (rowCells rangeCheck (additionRow s k a b))) :
    HoldsRow row (additionRow s k a b) ∧ Holds row 39 (rangeCells rangeCheck (additionRow s k a b)) := by
  have hb : ∀ {col v : ℕ}, Holds row col (biguintToLimbs v) →
      cells row col LIMBS = (biguintToLimbs v).map fromU32Unchecked := by
    intro col v h
    rw [← h.cells, length_biguintToLimbs]
  have hc : ∀ {col : ℕ}, Holds row col (carriesOut a b) →
      cells row col LIMBS = (carriesOut a b).map fromU32Unchecked := by
    intro col h
    rw [← h.cells, length_carriesOut]
  unfold rowCells at h
  simp only [holds_append, holds_cons, List.length_append, List.length_cons, List.length_nil,
    additionRow, length_biguintToLimbs, length_carriesOut] at h
  obtain ⟨⟨⟨⟨⟨⟨h0, h1, h2, _⟩, h3⟩, h4⟩, h5⟩, h6⟩, h7⟩ := h
  exact ⟨⟨h0, h1, h2, hb h3, hb h4, hb h5, hc h6⟩, h7⟩

/-- **A row of the trace satisfies every constraint.** -/
theorem evaluate_additionRow (h : Holds row 0 (rowCells rangeCheck (additionRow s k a b))) :
    ∀ c ∈ (evaluate rangeCheck (start row)).constraints, c = 0 := by
  obtain ⟨hr, hrange⟩ := holds_additionRow h
  have hreal : rowIsReal row = 1 := hr.isReal.trans Nat.cast_one
  have hcarry : ∀ i < LIMBS, (rowCarry row).getD i 0 = (carryInto limbOffset a b (i + 1) : M31) := by
    intro i hi
    rw [hr.carry, additionRow, carriesOut, List.map_map, List.getD_eq_getElem _ _ (by simpa using hi)]
    simp [fromU32Unchecked]
  rw [evaluate_constraints]
  rw [List.forall_mem_append]
  refine ⟨compactConstraints_eq_zero hreal hr.acc hr.addend hr.next hcarry, ?_⟩
  rw [hreal, hr.acc, hr.addend, hr.next]
  cases rangeCheck with
  | off => simp
  | bits =>
    have hlen : ∀ v : ℕ, (limbBitCells 0 (biguintToLimbs v)).length = 256 := by
      intro v
      rw [length_limbBitCells, length_biguintToLimbs]
      decide
    simp only [rangeCells, additionRow, holds_append, List.length_append, hlen] at hrange
    obtain ⟨⟨hacc, hadd⟩, hnext⟩ := hrange
    simp only [List.forall_mem_append]
    exact ⟨⟨limbBitConstraints_holds _ 0 hacc fun p hp => mem_zipIdx_limbs hp,
      limbBitConstraints_holds _ 0 hadd fun p hp => mem_zipIdx_limbs hp⟩,
      limbBitConstraints_holds _ 0 hnext fun p hp => mem_zipIdx_limbs hp⟩
  | lookup => exact lookupConstraints_holds _ hrange

theorem limbBitConstraints_padding : ∀ (limbs : List M31) (limbIdx col : ℕ),
    ∀ c ∈ limbBitConstraints row 0 limbIdx col limbs, c = 0
  | [], _, _ => by simp [limbBitConstraints]
  | _ :: limbs, limbIdx, col => by
      simpa [limbBitConstraints, or_imp, forall_and] using
        limbBitConstraints_padding limbs (limbIdx + 1) (col + limbBits limbIdx)

theorem lookupConstraints_padding : ∀ (limbs : List M31) (col : ℕ),
    ∀ c ∈ lookupConstraints row 0 col limbs, c = 0
  | [], _ => by simp [lookupConstraints]
  | _ :: limbs, col => by
      simpa [lookupConstraints] using lookupConstraints_padding limbs (col + 2)

/-- **A row that is not real satisfies every constraint.** -/
theorem evaluate_padding (h : rowIsReal row = 0) :
    ∀ c ∈ (evaluate rangeCheck (start row)).constraints, c = 0 := by
  rw [evaluate_constraints, List.forall_mem_append, h]
  refine ⟨by simp [compactConstraints, h], ?_⟩
  cases rangeCheck with
  | off => simp
  | bits =>
    simp only [List.forall_mem_append]
    exact ⟨⟨limbBitConstraints_padding _ _ _, limbBitConstraints_padding _ _ _⟩,
      limbBitConstraints_padding _ _ _⟩
  | lookup => exact lookupConstraints_padding _ _

end Rows

/-! ## 3. The trace -/

/-- The limbs are below their bases. -/
def Canonical (limbs : List ℕ) : Prop :=
  limbs.length = LIMBS ∧ ∀ i < LIMBS, limbs.getD i 0 < limbBase i

theorem canonical_biguintToLimbs (v : ℕ) : Canonical (biguintToLimbs v) :=
  ⟨length_biguintToLimbs v, fun i hi => by
    rw [getD_biguintToLimbs v hi]
    exact limb_lt_base v i⟩

/-- What the assertions of the generator say of a row it writes. -/
structure Row.InRange (row : Row) : Prop where
  acc : Canonical row.acc
  addend : Canonical row.addend
  next : Canonical row.next
  carry : row.carry.length = LIMBS ∧ ∀ c ∈ row.carry, c = 0 ∨ c = 1
  chunks : ∀ i < LIMBS, (splitLookupChunks (row.next.getD i 0)).1 < 2 ^ LOOKUP_CHUNK_BITS ∧
    (splitLookupChunks (row.next.getD i 0)).2 < 2 ^ lookupHighBits i

theorem additionRow_inRange (s k a b : ℕ) : (additionRow s k a b).InRange where
  acc := canonical_biguintToLimbs a
  addend := canonical_biguintToLimbs b
  next := canonical_biguintToLimbs (a + b)
  carry := ⟨length_carriesOut a b, fun c hc => by
    obtain ⟨i, _, rfl⟩ := List.mem_map.mp hc
    exact Nat.le_one_iff_eq_zero_or_eq_one.mp (carryInto_le_one a b (i + 1))⟩
  chunks := fun i hi => splitLookupChunks_lt ((canonical_biguintToLimbs (a + b)).2 i hi)

/-- **Completeness of the constraints** over one fixture: `generate_main_trace` does not panic,
    every row of its table satisfies every constraint, the rows it wrote keep the generator's
    assertions, and they add the addend `K` times. -/
structure TraceComplete (rangeCheck : RangeCheckMode) (cases : List TestCase) (K : ℕ) : Prop where
  trace : ∃ cols counts,
    generateMainTrace cases K (paddedRows (cases.length * K)) rangeCheck = some (cols, counts) ∧
    cols.Shape (traceColumns rangeCheck) (paddedRows (cases.length * K)) ∧
    (∀ p ∈ (traceRows cases K).zipIdx, Holds (cols.row p.2) 0 (rowCells rangeCheck p.1)) ∧
    ∀ rowIdx < paddedRows (cases.length * K),
      ∀ c ∈ (evaluate rangeCheck (start (cols.row rowIdx))).constraints, c = 0
  inRange : ∀ row ∈ traceRows cases K, row.InRange
  addLimbs : ∀ a b, (addLimbs (biguintToLimbs a) (biguintToLimbs b)).1 =
    biguintToLimbs ((a + b) % 2 ^ 256)
  lastNext : ∀ p ∈ cases.zipIdx, ((caseRows K p).getLast?).map Row.next =
    some (biguintToLimbs ((p.1.r0In + K * p.1.r1In) % 2 ^ 256))

theorem le_paddedRows (n : ℕ) : n ≤ paddedRows n :=
  (Nat.le_pow_clog Nat.one_lt_two n).trans (Nat.le_max_left _ _)

/-- **Completeness of the native iadd256 constraints**, for every fixture and every mode. -/
theorem mainTrace_complete (rangeCheck : RangeCheckMode) (cases : List TestCase) {K : ℕ}
    (hK : 1 ≤ K) : TraceComplete rangeCheck cases K where
  trace := by
    obtain ⟨cols, counts, hrun, hs, _, hr, hpad⟩ := @generateMainTrace_spec rangeCheck _ _ _
      (le_paddedRows (cases.length * K))
    have hholds : ∀ p ∈ (traceRows cases K).zipIdx,
        Holds (cols.row p.2) 0 (rowCells rangeCheck p.1) := by
      intro p hp i _
      rw [hr p hp, Nat.zero_add]
    refine ⟨cols, counts, hrun, hs, hholds, fun rowIdx hlt => ?_⟩
    by_cases hreal : rowIdx < (traceRows cases K).length
    · have hp : ((traceRows cases K).get ⟨rowIdx, hreal⟩, rowIdx) ∈ (traceRows cases K).zipIdx :=
        List.mk_mem_zipIdx_iff_getElem?.mpr (List.getElem?_eq_getElem hreal)
      obtain ⟨s, k, a, b, e⟩ := mem_traceRows (List.get_mem (traceRows cases K) ⟨rowIdx, hreal⟩)
      have h := hholds _ hp
      rw [e] at h
      exact evaluate_additionRow h
    · rw [length_traceRows] at hreal
      refine evaluate_padding ?_
      rw [rowIsReal, hpad rowIdx (Nat.le_of_not_lt hreal)]
  inRange := by
    intro row hrow
    obtain ⟨s, k, a, b, rfl⟩ := mem_traceRows hrow
    exact additionRow_inRange s k a b
  addLimbs := by
    intro a b
    rw [addLimbs_eq, biguintToLimbs_mod]
  lastNext := by
    intro p _
    obtain ⟨n, rfl⟩ : ∃ n, K = n + 1 := ⟨K - 1, by omega⟩
    rw [caseRows_eq, List.range_succ, List.map_append, List.map_singleton,
      List.getLast?_append, List.getLast?_singleton, Option.some_or, Option.map_some,
      biguintToLimbs_mod]
    show some (biguintToLimbs _) = _
    congr 2
    ring

theorem mainTrace_complete_sample : TraceComplete .lookup [sampleCase] 2 :=
  mainTrace_complete .lookup [sampleCase] (by decide)

end GroverTax.NativeAir
