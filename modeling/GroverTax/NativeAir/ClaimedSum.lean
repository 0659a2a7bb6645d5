/-
  File:      GroverTax/NativeAir/ClaimedSum.lean
  Subject:   The claimed sums of benchmarks/stwo/iadd256/native-air/src/main.rs and the checks
             `main` makes of them before it proves.

  The total of the fractions of a trace is taken apart: batch by batch and row by row, the state
  terms of a case telescope (`state_total`), the lookup terms are summed by value
  (`lookup_total`), padding adds nothing. `claimedSums_balance` puts them together.
-/
import GroverTax.NativeAir.Interaction
import GroverTax.NativeAir.Fixture
import GroverTax.NativeAir.Soundness
import GroverTax.Lib.Sums

namespace GroverTax.NativeAir

open GroverTax.Lib EvalAtRow

variable {F : Type} [Field F] [Algebra M31 F] (combine : RelationId → List M31 → F)

/-! ## 1. The sums -/

/-- The sum of a column of fractions, as `finalize_last` returns it for the last column. -/
def claimedSum (column : List (PackedFraction F)) : F :=
  (column.map fun f => ∑ lane, f.numerator lane / f.denominator lane).sum

/-- The columns `gen_main_interaction_trace` writes. -/
def mainInteractionColumns (rangeCheck : RangeCheckMode) (cases : List TestCase)
    (repetitions paddedRows : ℕ) : Option (List (List (PackedFraction F))) :=
  (List.range (mainInteractionBatches rangeCheck)).mapM fun batchIdx =>
    (packedRows cases repetitions paddedRows).mapM fun call =>
      mainBatchedFraction combine rangeCheck batchIdx call.2

/-- The column of `gen_seq_lookup_interaction_trace`. -/
def seqLookupColumn (relation : RelationId) (counts : List ℕ) : List (PackedFraction F) :=
  (List.range (2 ^ (tableBits relation - 4))).map fun vecRow =>
    ⟨fun lane => -algebraMap M31 F (fromU32Unchecked (counts.getD (LANE_COUNT * vecRow + lane) 0)),
      combinePacked combine relation [fun lane => fromU32Unchecked (LANE_COUNT * vecRow + lane)]⟩

/-- One round of `public_boundary_sum`. -/
def publicBoundaryStep (repetitions : ℕ) (sum : F) (p : TestCase × ℕ) : Option F := do
  let initialState := stateFromLimbs (asU32 p.2) 0 (biguintToLimbs p.1.r0In)
    (biguintToLimbs p.1.r1In)
  let finalAcc ← lowRegisterFromStateHex p.1.yHex
  let finalState := stateFromLimbs (asU32 p.2) (asU32 repetitions) (biguintToLimbs finalAcc)
    (biguintToLimbs p.1.r1In)
  return sum + ((combine .state initialState)⁻¹ - (combine .state finalState)⁻¹)

def publicBoundarySum (cases : List TestCase) (repetitions : ℕ) : Option F :=
  run (publicBoundaryStep combine repetitions) 0 cases.zipIdx

def seqLookupPublicSum (relation : RelationId) (counts : List ℕ) : F :=
  counts.zipIdx.foldl (fun sum p =>
    if p.1 = 0 then sum
    else sum + algebraMap M31 F (fromU32Unchecked p.1) *
      (combine relation [fromU32Unchecked p.2])⁻¹) 0

def lookupPublicSum (counts : LookupCounts) : F :=
  seqLookupPublicSum combine .seq18 counts.seq18 + seqLookupPublicSum combine .seq11 counts.seq11 +
    seqLookupPublicSum combine .seq6 counts.seq6

inductive ClaimError where
  | panic
  /-- decoding y_hex, or: expected at least 32 state bytes -/
  | stateHex
  /-- native transition claimed sum does not match fixture boundary sum -/
  | transition
  /-- seq lookup claimed sum mismatch -/
  | lookup (relation : RelationId)
  deriving DecidableEq, Repr

/-- The check of one lookup component. -/
def seqLookupClaim [DecidableEq F] (relation : RelationId) (counts : List ℕ) :
    Except ClaimError F :=
  let sum := claimedSum (seqLookupColumn combine relation counts)
  if sum ≠ -seqLookupPublicSum combine relation counts then .error (.lookup relation) else .ok sum

/-- The claimed sums of `main`, from the trace to the last check. -/
def claimedSums [DecidableEq F] (rangeCheck : RangeCheckMode) (cases : List TestCase)
    (repetitions : ℕ) : Except ClaimError (List F) := do
  let padded := paddedRows (cases.length * repetitions)
  let (_, lookupCounts) ←
    match generateMainTrace cases repetitions padded rangeCheck with
    | some t => .ok t
    | none => .error .panic
  let columns ← match mainInteractionColumns combine rangeCheck cases repetitions padded with
    | some columns => .ok columns
    | none => .error .panic
  let mainClaimedSum := (columns.map claimedSum).sum
  let boundarySum ← match publicBoundarySum combine cases repetitions with
    | some sum => .ok sum
    | none => .error .stateHex
  let lookupSum := match lookupCounts with
    | some counts => lookupPublicSum combine counts
    | none => 0
  if mainClaimedSum ≠ boundarySum + lookupSum then .error .transition
  else match lookupCounts with
    | none => .ok [mainClaimedSum]
    | some counts => do
        let seq18 ← seqLookupClaim combine .seq18 counts.seq18
        let seq11 ← seqLookupClaim combine .seq11 counts.seq11
        let seq6 ← seqLookupClaim combine .seq6 counts.seq6
        .ok [mainClaimedSum, seq18, seq11, seq6]

/-! ## 2. The total, batch by batch and row by row -/

section Total

variable {combine} {rangeCheck : RangeCheckMode} {cases : List TestCase} {K n : ℕ}

theorem dvd_paddedRows (n : ℕ) : LANE_COUNT ∣ paddedRows n := by
  have h64 : LANE_COUNT ∣ 1 <<< (4 + 2) := by decide
  unfold paddedRows nextPowerOfTwo
  rcases le_total (2 ^ Nat.clog 2 n) (1 <<< (4 + 2)) with h | h
  · rwa [max_eq_right h]
  · rw [max_eq_left h]
    have h6 : 4 + 2 ≤ Nat.clog 2 n := by
      rw [Nat.one_shiftLeft] at h
      exact (Nat.pow_le_pow_iff_right Nat.one_lt_two).mp h
    rw [← Nat.add_sub_cancel' h6, pow_add, ← Nat.one_shiftLeft]
    exact Dvd.dvd.mul_right h64 _

/-- No fraction of the trace divides by zero. -/
def NonzeroDenominators (combine : RelationId → List M31 → F) (rangeCheck : RangeCheckMode)
    (cases : List TestCase) (K : ℕ) : Prop :=
  ∀ batchIdx < mainInteractionBatches rangeCheck,
    ∀ call ∈ packedRows cases K (paddedRows (cases.length * K)), ∀ frac,
      mainBatchedFraction combine rangeCheck batchIdx call.2 = some frac →
        ∀ lane, frac.denominator lane ≠ 0

/-- The columns are written, no batch panics. -/
theorem mainInteractionColumns_eq (rangeCheck : RangeCheckMode) (cases : List TestCase) (K n : ℕ) :
    mainInteractionColumns combine rangeCheck cases K n =
      some ((List.range (mainInteractionBatches rangeCheck)).map fun b =>
        (packedRows cases K n).map fun call => batchFraction combine b call.2) :=
  mapM_eq_map fun _ hb => mapM_eq_map fun _ _ => mainBatchedFraction_eq (List.mem_range.mp hb)

theorem batchTerm_zero (b : ℕ) : batchTerm combine b Row.zero = 0 := by
  have h : algebraMap M31 F (fromU32Unchecked Row.zero.isReal) = 0 := by
    rw [show fromU32Unchecked Row.zero.isReal = 0 from Nat.cast_zero, map_zero]
  unfold batchTerm
  rw [h]
  simp

/-- **A column's sum is the sum over the rows of the trace**: padding adds nothing. -/
theorem claimedSum_column (hden : NonzeroDenominators combine rangeCheck cases K) {b : ℕ}
    (hb : b < mainInteractionBatches rangeCheck) :
    claimedSum ((packedRows cases K (paddedRows (cases.length * K))).map fun call =>
        batchFraction combine b call.2) =
      ((traceRows cases K).map (batchTerm combine b)).sum := by
  have hle := le_paddedRows (cases.length * K)
  have hlen := length_allRows hle
  obtain ⟨m, hm⟩ := dvd_paddedRows (cases.length * K)
  have hdiv : paddedRows (cases.length * K) / LANE_COUNT = m := by
    rw [hm, Nat.mul_div_cancel_left _ (by decide)]
  set rows := allRows cases K (paddedRows (cases.length * K)) with hrows
  have hcall : ∀ v ∈ List.range m, ∑ lane,
      (batchFraction combine b (lanes rows v)).numerator lane /
        (batchFraction combine b (lanes rows v)).denominator lane =
      ∑ lane : Fin LANE_COUNT, batchTerm combine b (rows.getD (LANE_COUNT * v + lane) Row.zero) := by
    intro v hv
    refine Finset.sum_congr rfl fun lane _ => batchFraction_eq b ?_
    refine hden b hb (v, lanes rows v) ?_ _ (mainBatchedFraction_eq hb) lane
    rw [packedRows_eq hle, hdiv]
    exact List.mem_map.mpr ⟨v, hv, rfl⟩
  calc claimedSum ((packedRows cases K (paddedRows (cases.length * K))).map fun call =>
          batchFraction combine b call.2)
      = ((List.range m).map fun v => ∑ lane : Fin LANE_COUNT,
          batchTerm combine b (rows.getD (LANE_COUNT * v + lane) Row.zero)).sum := by
        rw [claimedSum, packedRows_eq hle, hdiv, List.map_map, List.map_map]
        exact congrArg List.sum (List.map_congr_left hcall)
    _ = ∑ i ∈ Finset.range (LANE_COUNT * m), batchTerm combine b (rows.getD i Row.zero) := by
        rw [← sum_records LANE_COUNT fun i => batchTerm combine b (rows.getD i Row.zero)]
        rfl
    _ = (rows.map (batchTerm combine b)).sum := by
        rw [sum_map_range _ Row.zero, hlen, hm]
    _ = ((traceRows cases K).map (batchTerm combine b)).sum := by
        rw [hrows, allRows, List.map_append, List.sum_append, List.map_replicate, batchTerm_zero,
          List.sum_replicate, smul_zero, add_zero]

/-! The state terms. -/

/-- The inverse of the honest state of a case after `k` repetitions. -/
def stateInverse (combine : RelationId → List M31 → F) (p : TestCase × ℕ) (k : ℕ) : F :=
  (combine .state (honestState p.1 p.2 k))⁻¹

/-- **The state terms of a case telescope.** -/
theorem case_total {p : TestCase × ℕ} (hp : p.2 < 2 ^ 32) (hK : K ≤ 2 ^ 32) :
    ((caseRows K p).map (batchTerm combine 0)).sum =
      stateInverse combine p 0 - stateInverse combine p K := by
  have hrow : ∀ j ∈ List.range K, batchTerm combine 0
      (additionRow p.2 j (p.1.r0In + j * p.1.r1In) p.1.r1In) =
        stateInverse combine p j - stateInverse combine p (j + 1) := by
    intro j hj
    have hj := List.mem_range.mp hj
    have hone : algebraMap M31 F (fromU32Unchecked 1) = 1 := by
      rw [show fromU32Unchecked 1 = 1 from Nat.cast_one, map_one]
    have hsucc : p.1.r0In + j * p.1.r1In + p.1.r1In = p.1.r0In + (j + 1) * p.1.r1In := by ring
    rw [batchTerm, if_pos rfl]
    simp only [additionRow, asU32_of_lt hp, asU32_of_lt (show j < 2 ^ 32 by omega), hone, one_div,
      hsucc]
    rfl
  rw [caseRows_eq, List.map_map, ← Finset.sum_range_sub' (stateInverse combine p) K]
  exact congrArg List.sum (List.map_congr_left hrow)

theorem state_total (hcases : cases.length ≤ 2 ^ 32) (hK : cases = [] ∨ K ≤ 2 ^ 32) :
    ((traceRows cases K).map (batchTerm combine 0)).sum =
      (cases.zipIdx.map fun p => stateInverse combine p 0 - stateInverse combine p K).sum := by
  rw [traceRows, sum_map_flatMap]
  refine congrArg List.sum (List.map_congr_left fun p hp => ?_)
  have hlt := (List.mem_zipIdx' hp).1
  refine case_total (by omega) (hK.resolve_left ?_)
  rintro rfl
  exact absurd hlt (Nat.not_lt_zero _)

omit [Algebra M31 F] in
/-- **The public boundary of honest cases** is what is left. -/
theorem run_publicBoundaryStep : ∀ (cases : List TestCase) (i : ℕ) (sum : F),
    (∀ case ∈ cases, Honest K case) → i + cases.length ≤ 2 ^ 32 → (cases = [] ∨ K < 2 ^ 32) →
      run (publicBoundaryStep combine K) sum (cases.zipIdx i) = some (sum +
        ((cases.zipIdx i).map fun p => stateInverse combine p 0 - stateInverse combine p K).sum)
  | [], _, sum, _, _, _ => by simp
  | case :: cases, i, sum, h, hi, hK => by
      rw [List.forall_mem_cons] at h
      rw [List.length_cons] at hi
      have hK' : K < 2 ^ 32 := hK.resolve_left (List.cons_ne_nil _ _)
      have ih := run_publicBoundaryStep cases (i + 1)
        (sum + (stateInverse combine (case, i) 0 - stateInverse combine (case, i) K)) h.2 (by omega)
        (Or.inr hK')
      have hstep : publicBoundaryStep combine K sum (case, i) =
          some (sum + (stateInverse combine (case, i) 0 - stateInverse combine (case, i) K)) := by
        have hv : lowRegisterFromStateHex case.yHex = _ := h.1
        simp only [publicBoundaryStep, hv, Option.bind_eq_bind, Option.bind_some, Option.pure_def,
          biguintToLimbs_mod, asU32_of_lt hK', asU32_of_lt (show i < 2 ^ 32 by omega), stateInverse,
          honestState, Nat.zero_mul, Nat.add_zero]
      rw [List.zipIdx_cons, run_cons, hstep, Option.bind_some, ih, List.map_cons, List.sum_cons,
        add_assoc]

/-! The lookup terms. -/

/-- The sum of the inverses a relation is asked for. -/
def eventSum (combine : RelationId → List M31 → F) (relation : RelationId) (events : List ℕ) : F :=
  (events.map fun v => (combine relation [fromU32Unchecked v])⁻¹).sum

/-- The sum over the three lookup relations. -/
def eventSums (combine : RelationId → List M31 → F) (events : RelationId → List ℕ) : F :=
  eventSum combine .seq18 (events .seq18) + eventSum combine .seq11 (events .seq11) +
    eventSum combine .seq6 (events .seq6)

omit [Algebra M31 F] in
theorem eventSums_nil : eventSums combine (fun _ => []) = 0 := by simp [eventSums, eventSum]

omit [Algebra M31 F] in
theorem eventSums_append (events more : RelationId → List ℕ) :
    eventSums combine (fun r => events r ++ more r) =
      eventSums combine events + eventSums combine more := by
  simp only [eventSums, eventSum, List.map_append, List.sum_append]
  ring

omit [Algebra M31 F] in
theorem eventSums_flatMap {α : Type} (f : RelationId → α → List ℕ) : ∀ l : List α,
    eventSums combine (fun r => l.flatMap (f r)) =
      (l.map fun a => eventSums combine fun r => f r a).sum
  | [] => eventSums_nil
  | a :: l => by
      rw [List.map_cons, List.sum_cons, ← eventSums_flatMap f l, ← eventSums_append]
      rfl

omit [Algebra M31 F] in
/-- What a limb looks up: its low chunk, and its high chunk in the limb's table. -/
theorem eventSums_chunkLookups (p : ℕ × ℕ) :
    eventSums combine (fun r => chunkLookups r p) =
      (combine .seq18 [fromU32Unchecked (splitLookupChunks p.1).1])⁻¹ +
        (combine (highRelation p.2) [fromU32Unchecked (splitLookupChunks p.1).2])⁻¹ := by
  have hne : RelationId.seq11 ≠ .seq18 ∧ RelationId.seq6 ≠ .seq18 ∧ RelationId.seq6 ≠ .seq11 ∧
      RelationId.seq11 ≠ .seq6 := by decide
  by_cases htop : p.2 + 1 = LIMBS
  · have hrel : highRelation p.2 = .seq6 := if_pos htop
    simp [eventSums, eventSum, chunkLookups, hrel]
  · have hrel : highRelation p.2 = .seq11 := if_neg htop
    simp [eventSums, eventSum, chunkLookups, hrel]

/-- **The lookup batches of a real row**, as what its sums look up. -/
theorem row_lookups {row : Row} (hreal : row.isReal = 1) (hnext : row.next.length = LIMBS) :
    ∑ i ∈ Finset.range LIMBS, batchTerm combine (i + 1) row =
      eventSums combine fun r => rowLookups r row := by
  have hone : algebraMap M31 F (fromU32Unchecked 1) = 1 := by
    rw [show fromU32Unchecked 1 = 1 from Nat.cast_one, map_one]
  unfold rowLookups
  rw [eventSums_flatMap, sum_map_range _ (0, 0), List.length_zipIdx, hnext]
  refine Finset.sum_congr rfl fun i hi => ?_
  have hlt : i < row.next.length := hnext ▸ Finset.mem_range.mp hi
  have hget : row.next.zipIdx.getD i (0, 0) = (row.next.getD i 0, i) := by
    rw [List.getD_eq_getElem _ _ (by simpa using hlt), List.getD_eq_getElem _ _ hlt]
    simp
  rw [hget, eventSums_chunkLookups, batchTerm, if_neg (Nat.succ_ne_zero i), hreal, hone]
  simp only [one_div, Nat.add_sub_cancel]

theorem lookup_total (cases : List TestCase) (K : ℕ) :
    ∑ i ∈ Finset.range LIMBS, ((traceRows cases K).map (batchTerm combine (i + 1))).sum =
      eventSums combine fun r => (traceRows cases K).flatMap (rowLookups r) := by
  rw [eventSums_flatMap, sum_map_range _ Row.zero]
  simp only [sum_map_range _ Row.zero]
  rw [Finset.sum_comm]
  refine Finset.sum_congr rfl fun j hj => ?_
  have hj := Finset.mem_range.mp hj
  have hmem : (traceRows cases K).getD j Row.zero ∈ traceRows cases K := by
    rw [List.getD_eq_getElem _ _ hj]
    exact List.getElem_mem hj
  obtain ⟨s, k, a, b, e⟩ := mem_traceRows hmem
  rw [e]
  exact row_lookups rfl (length_biguintToLimbs (a + b))

/-- A lookup is a chunk of a limb, inside its table. -/
theorem chunkLookups_lt {r : RelationId} {p : ℕ × ℕ} (hp : p.1 < limbBase p.2) {v : ℕ}
    (hv : v ∈ chunkLookups r p) : v < 2 ^ tableBits r := by
  obtain ⟨hlo, hhi⟩ := splitLookupChunks_lt hp
  unfold chunkLookups at hv
  split at hv
  · rename_i h
    rw [List.mem_singleton.mp hv, h]
    exact hlo
  · split at hv
    · rename_i h
      rw [List.mem_singleton.mp hv, h, ← lookupHighBits_eq]
      exact hhi
    · exact absurd hv List.not_mem_nil

theorem length_chunkLookups_le (r : RelationId) (p : ℕ × ℕ) : (chunkLookups r p).length ≤ 1 := by
  unfold chunkLookups
  split
  · exact Nat.le_refl _
  · split
    · exact Nat.le_refl _
    · exact Nat.zero_le _

/-- **The lookups of a trace are inside their tables**, and no more than nine a row. -/
theorem traceRows_lookups (r : RelationId) (cases : List TestCase) (K : ℕ) :
    (∀ v ∈ (traceRows cases K).flatMap (rowLookups r), v < 2 ^ tableBits r) ∧
      ((traceRows cases K).flatMap (rowLookups r)).length ≤ 9 * (cases.length * K) := by
  constructor
  · intro v hv
    obtain ⟨row, hrow, hv⟩ := List.mem_flatMap.mp hv
    obtain ⟨s, k, a, b, rfl⟩ := mem_traceRows hrow
    obtain ⟨p, hp, hv⟩ := List.mem_flatMap.mp hv
    exact chunkLookups_lt (mem_zipIdx_limbs hp) hv
  · rw [← length_traceRows]
    refine length_flatMap_le fun row hrow => ?_
    obtain ⟨s, k, a, b, rfl⟩ := mem_traceRows hrow
    have h := length_flatMap_le (f := chunkLookups r) (l := (biguintToLimbs (a + b)).zipIdx)
      fun p _ => length_chunkLookups_le r p
    rw [List.length_zipIdx, length_biguintToLimbs, Nat.one_mul] at h
    exact h

end Total

/-! ## 3. The lookup components -/

section Components

variable {combine} {relation : RelationId} {counts events : List ℕ} {bits : ℕ}

/-- `seq_lookup_public_sum` skips nothing that counts. -/
theorem foldl_publicSum : ∀ (counts : List ℕ) (i : ℕ) (sum : F),
    (counts.zipIdx i).foldl (fun sum p =>
        if p.1 = 0 then sum
        else sum + algebraMap M31 F (fromU32Unchecked p.1) *
          (combine relation [fromU32Unchecked p.2])⁻¹) sum =
      sum + ((counts.zipIdx i).map fun p => algebraMap M31 F (fromU32Unchecked p.1) *
        (combine relation [fromU32Unchecked p.2])⁻¹).sum
  | [], _, sum => by simp
  | c :: counts, i, sum => by
      rw [List.zipIdx_cons, List.foldl_cons, List.map_cons, List.sum_cons, foldl_publicSum counts,
        ← add_assoc]
      by_cases h : c = 0
      · rw [if_pos h, h, show fromU32Unchecked 0 = 0 from Nat.cast_zero, map_zero, zero_mul,
          add_zero]
      · rw [if_neg h]

theorem seqLookupPublicSum_eq_sum (counts : List ℕ) : seqLookupPublicSum combine relation counts =
    ∑ v ∈ Finset.range counts.length, algebraMap M31 F (fromU32Unchecked (counts.getD v 0)) *
      (combine relation [fromU32Unchecked v])⁻¹ := by
  rw [seqLookupPublicSum, foldl_publicSum, zero_add, sum_map_range _ (0, 0), List.length_zipIdx]
  refine Finset.sum_congr rfl fun v hv => ?_
  have hlt := Finset.mem_range.mp hv
  rw [List.getD_eq_getElem _ _ (by simpa using hlt), List.getD_eq_getElem _ _ hlt]
  simp

/-- **The public sum of counted lookups is their sum**, while no counter wraps. -/
theorem seqLookupPublicSum_eq (h : Tally bits counts events) (hev : ∀ e ∈ events, e < 2 ^ bits)
    (hlt : ∀ v, events.count v < 2 ^ 32) :
    seqLookupPublicSum combine relation counts = eventSum combine relation events := by
  obtain ⟨hl, hval⟩ := h
  rw [seqLookupPublicSum_eq_sum, eventSum, sum_map_eq_count _ hev, hl]
  refine Finset.sum_congr rfl fun v hv => ?_
  rw [hval v (Finset.mem_range.mp hv), asU32_of_lt (hlt v), fromU32Unchecked, map_natCast]

/-- The same for the three tables. -/
theorem lookupPublicSum_eq_eventSums {counts : LookupCounts} {events : RelationId → List ℕ}
    (h : counts.Tallied events) (hev : ∀ r, ∀ e ∈ events r, e < 2 ^ tableBits r)
    (hlt : ∀ r v, (events r).count v < 2 ^ 32) :
    lookupPublicSum combine counts = eventSums combine events := by
  have hsum : ∀ r, r ≠ .state → seqLookupPublicSum combine r (counts.table r) =
      eventSum combine r (events r) := fun r hr => seqLookupPublicSum_eq (h r hr) (hev r) (hlt r)
  have h18 := hsum .seq18 (by decide)
  have h11 := hsum .seq11 (by decide)
  have h6 := hsum .seq6 (by decide)
  rw [eventSums, ← h18, ← h11, ← h6]
  rfl

/-- **A lookup component's claimed sum is its public sum, negated.** -/
theorem claimedSum_seqLookupColumn (hl : counts.length = 2 ^ tableBits relation)
    (hbits : 4 ≤ tableBits relation) :
    claimedSum (seqLookupColumn combine relation counts) =
      -seqLookupPublicSum combine relation counts := by
  have hlen : LANE_COUNT * 2 ^ (tableBits relation - 4) = counts.length := by
    rw [hl, show LANE_COUNT = 2 ^ 4 from rfl, ← pow_add, Nat.add_sub_cancel' hbits]
  let term : ℕ → F := fun v => -algebraMap M31 F (fromU32Unchecked (counts.getD v 0)) /
    combine relation [fromU32Unchecked v]
  calc claimedSum (seqLookupColumn combine relation counts)
      = ∑ v ∈ Finset.range (2 ^ (tableBits relation - 4)), ∑ lane : Fin LANE_COUNT,
          term (LANE_COUNT * v + lane) := by
        rw [claimedSum, seqLookupColumn, List.map_map]
        rfl
    _ = ∑ v ∈ Finset.range counts.length, term v := by rw [sum_records, hlen]
    _ = -seqLookupPublicSum combine relation counts := by
        rw [seqLookupPublicSum_eq_sum, ← Finset.sum_neg_distrib]
        refine Finset.sum_congr rfl fun v _ => ?_
        rw [← neg_mul, ← div_eq_mul_inv]

theorem seqLookupClaim_eq [DecidableEq F] (hl : counts.length = 2 ^ tableBits relation)
    (hbits : 4 ≤ tableBits relation) :
    seqLookupClaim combine relation counts = .ok (-seqLookupPublicSum combine relation counts) := by
  have h := @claimedSum_seqLookupColumn F _ _ combine _ _ hl hbits
  unfold seqLookupClaim
  rw [h]
  exact if_neg fun hne => hne rfl

end Components

/-! ## 4. The checks of `main` -/

section Checks

variable {combine} {rangeCheck : RangeCheckMode} {cases : List TestCase} {K : ℕ}

/-- The public sum of the lookups of a trace. -/
def lookupSum (combine : RelationId → List M31 → F) : Option LookupCounts → F
  | some counts => lookupPublicSum combine counts
  | none => 0

/-- **What the prover's sums come to**, over one fixture and one choice of challenges. -/
structure Balanced [DecidableEq F] (combine : RelationId → List M31 → F)
    (rangeCheck : RangeCheckMode) (cases : List TestCase) (K : ℕ) : Prop where
  /-- Every fraction of every row is the sum of the pair of entries in its place. -/
  pairs : ∃ cols counts,
    generateMainTrace cases K (paddedRows (cases.length * K)) rangeCheck = some (cols, counts) ∧
    ∀ rowIdx < paddedRows (cases.length * K),
      (evaluate rangeCheck (start (cols.row rowIdx))).entries.length =
        2 * mainInteractionBatches rangeCheck ∧
      ∀ batchIdx < mainInteractionBatches rangeCheck, ∃ rows frac e0 e1,
        (rowIdx / LANE_COUNT, rows) ∈ packedRows cases K (paddedRows (cases.length * K)) ∧
        mainBatchedFraction combine rangeCheck batchIdx rows = some frac ∧
        (evaluate rangeCheck (start (cols.row rowIdx))).entries[2 * batchIdx]? = some e0 ∧
        (evaluate rangeCheck (start (cols.row rowIdx))).entries[2 * batchIdx + 1]? = some e1 ∧
        ∀ lane : Fin LANE_COUNT, (lane : ℕ) = rowIdx % LANE_COUNT →
          frac.numerator lane / frac.denominator lane =
            entryFraction combine e0 + entryFraction combine e1
  /-- The total is the boundary sum and the sum of the lookups counted. -/
  total : ∃ cols counts columns boundary,
    generateMainTrace cases K (paddedRows (cases.length * K)) rangeCheck = some (cols, counts) ∧
    mainInteractionColumns combine rangeCheck cases K (paddedRows (cases.length * K)) =
      some columns ∧
    publicBoundarySum combine cases K = some boundary ∧
    (columns.map claimedSum).sum = boundary + lookupSum combine counts
  /-- No check of `main` fails. -/
  check : ∃ sums, claimedSums combine rangeCheck cases K = .ok sums

/-- The total of the batches of a mode. -/
theorem columns_total (hden : NonzeroDenominators combine rangeCheck cases K) :
    (((List.range (mainInteractionBatches rangeCheck)).map fun b =>
        (packedRows cases K (paddedRows (cases.length * K))).map fun call =>
          batchFraction combine b call.2).map claimedSum).sum =
      ((traceRows cases K).map (batchTerm combine 0)).sum +
        if rangeCheck = .lookup then
          eventSums combine fun r => (traceRows cases K).flatMap (rowLookups r)
        else 0 := by
  have hcol : ∀ b ∈ List.range (mainInteractionBatches rangeCheck),
      claimedSum ((packedRows cases K (paddedRows (cases.length * K))).map fun call =>
        batchFraction combine b call.2) = ((traceRows cases K).map (batchTerm combine b)).sum :=
    fun b hb => claimedSum_column hden (List.mem_range.mp hb)
  rw [List.map_map]
  refine (congrArg List.sum (List.map_congr_left hcol)).trans ?_
  unfold mainInteractionBatches
  split
  · rw [Nat.add_comm 1, List.range_succ_eq_map, List.map_cons, List.sum_cons, List.map_map,
      ← lookup_total]
    rfl
  · simp

/-- **The counted lookups are the lookups.** -/
theorem lookupPublicSum_eq {counts : LookupCounts} {cases : List TestCase}
    (h : counts.Tallied fun r => (traceRows cases K).flatMap (rowLookups r))
    (hlt : 9 * cases.length * K < M31_MODULUS_U32) :
    lookupPublicSum combine counts =
      eventSums combine fun r => (traceRows cases K).flatMap (rowLookups r) := by
  have hM : M31_MODULUS_U32 < 2 ^ 32 := by decide
  refine lookupPublicSum_eq_eventSums h (fun r => (traceRows_lookups r cases K).1) fun r v => ?_
  have hlen := (traceRows_lookups r cases K).2
  rw [← Nat.mul_assoc] at hlen
  exact (List.count_le_length.trans hlen).trans_lt (hlt.trans hM)

/-- Row by row, fractions and entries. -/
theorem pairs_agree (hden : NonzeroDenominators combine rangeCheck cases K) {cols : Cols}
    (hcells : ∀ i < paddedRows (cases.length * K), CellsOf rangeCheck (cols.row i)
      ((allRows cases K (paddedRows (cases.length * K))).getD i Row.zero))
    {rowIdx : ℕ} (hrow : rowIdx < paddedRows (cases.length * K)) {batchIdx : ℕ}
    (hb : batchIdx < mainInteractionBatches rangeCheck) :
    ∃ rows frac e0 e1,
      (rowIdx / LANE_COUNT, rows) ∈ packedRows cases K (paddedRows (cases.length * K)) ∧
      mainBatchedFraction combine rangeCheck batchIdx rows = some frac ∧
      (evaluate rangeCheck (start (cols.row rowIdx))).entries[2 * batchIdx]? = some e0 ∧
      (evaluate rangeCheck (start (cols.row rowIdx))).entries[2 * batchIdx + 1]? = some e1 ∧
      ∀ lane : Fin LANE_COUNT, (lane : ℕ) = rowIdx % LANE_COUNT →
        frac.numerator lane / frac.denominator lane =
          entryFraction combine e0 + entryFraction combine e1 := by
  set rows := allRows cases K (paddedRows (cases.length * K)) with hrows
  have hmem : (rowIdx / LANE_COUNT, lanes rows (rowIdx / LANE_COUNT)) ∈
      packedRows cases K (paddedRows (cases.length * K)) := by
    rw [packedRows_eq (le_paddedRows _)]
    obtain ⟨m, hm⟩ := dvd_paddedRows (cases.length * K)
    refine List.mem_map.mpr ⟨_, List.mem_range.mpr ?_, rfl⟩
    rw [hm, Nat.mul_div_cancel_left _ (by decide)]
    exact Nat.div_lt_of_lt_mul (hm ▸ hrow)
  obtain ⟨e0, e1, h0, h1, he⟩ := @entries_eq_batchTerm F _ _ combine _ _ _ (hcells rowIdx hrow) _ hb
  refine ⟨_, _, e0, e1, hmem, mainBatchedFraction_eq hb, h0, h1, fun lane hlane => ?_⟩
  have hget : lanes rows (rowIdx / LANE_COUNT) lane = rows.getD rowIdx Row.zero := by
    rw [lanes, hlane, Nat.div_add_mod]
  rw [he, ← hget]
  exact batchFraction_eq batchIdx (hden batchIdx hb _ hmem _ (mainBatchedFraction_eq hb) lane)

/-- Sums that balance pass every check. -/
theorem claimedSums_eq_ok [DecidableEq F] {cols : Cols} {counts : Option LookupCounts}
    {columns : List (List (PackedFraction F))} {boundary : F} {events : RelationId → List ℕ}
    (htrace : generateMainTrace cases K (paddedRows (cases.length * K)) rangeCheck =
      some (cols, counts))
    (hcolumns : mainInteractionColumns combine rangeCheck cases K
      (paddedRows (cases.length * K)) = some columns)
    (hboundary : publicBoundarySum combine cases K = some boundary)
    (htotal : (columns.map claimedSum).sum = boundary + lookupSum combine counts)
    (hcounts : CountsAre counts rangeCheck events) :
    ∃ sums, claimedSums combine rangeCheck cases K = .ok sums := by
  have hclaim : ∀ c : LookupCounts, c.Tallied events → ∀ r, r ≠ .state → 4 ≤ tableBits r →
      seqLookupClaim combine r (c.table r) = .ok (-seqLookupPublicSum combine r (c.table r)) :=
    fun c hc r hr hbits => seqLookupClaim_eq (hc r hr).1 hbits
  unfold claimedSums
  simp only [htrace, hcolumns, hboundary, bind, Except.bind]
  unfold CountsAre at hcounts
  split at hcounts
  · obtain ⟨c, rfl, hc⟩ := hcounts
    have h18 : seqLookupClaim combine .seq18 c.seq18 = _ := hclaim c hc .seq18 (by decide) (by decide)
    have h11 : seqLookupClaim combine .seq11 c.seq11 = _ := hclaim c hc .seq11 (by decide) (by decide)
    have h6 : seqLookupClaim combine .seq6 c.seq6 = _ := hclaim c hc .seq6 (by decide) (by decide)
    exact ⟨[(columns.map claimedSum).sum, _, _, _], (if_neg (not_not.mpr htotal)).trans
      (by simp only [h18, h11, h6]; rfl)⟩
  · subst hcounts
    exact ⟨_, if_neg (not_not.mpr htotal)⟩

/-- **The claimed sums balance**: on every fixture the host accepts, every fraction is the sum of
    its pair of entries, the total is the public sum, and no check fails. -/
theorem claimedSums_balance [DecidableEq F] (combine : RelationId → List M31 → F)
    (rangeCheck : RangeCheckMode) {cases : List TestCase} {K : ℕ}
    (hfix : checkFixtureOutputs cases K = .ok ()) (hK : 1 ≤ K)
    (hlt : 9 * cases.length * K < M31_MODULUS_U32)
    (hden : NonzeroDenominators combine rangeCheck cases K) :
    Balanced combine rangeCheck cases K := by
  have hM : M31_MODULUS_U32 < 2 ^ 32 := by decide
  have hlen : cases.length ≤ 9 * cases.length * K :=
    (Nat.le_mul_of_pos_left _ (by decide)).trans (Nat.le_mul_of_pos_right _ hK)
  have hKlt : cases = [] ∨ K < 2 ^ 32 := by
    rcases Nat.eq_zero_or_pos cases.length with h | h
    · exact Or.inl (List.eq_nil_of_length_eq_zero h)
    · have : K ≤ 9 * cases.length * K := Nat.le_mul_of_pos_left K (by omega)
      exact Or.inr (by omega)
  obtain ⟨cols, counts, htrace, hcounts, hcells⟩ :=
    @generateMainTrace_cells rangeCheck _ _ _ (le_paddedRows (cases.length * K))
  have hcolumns := @mainInteractionColumns_eq F _ _ combine rangeCheck cases K
    (paddedRows (cases.length * K))
  have hboundary := @run_publicBoundaryStep F _ combine K cases 0 0
    (checkFixtureOutputs_eq_ok.mp hfix) (by omega) hKlt
  rw [zero_add, ← state_total (by omega) (hKlt.imp_right Nat.le_of_lt)] at hboundary
  have hlookup : lookupSum combine counts = if rangeCheck = .lookup then
      eventSums combine fun r => (traceRows cases K).flatMap (rowLookups r) else 0 := by
    unfold CountsAre at hcounts
    split at hcounts
    · rename_i hmode
      obtain ⟨c, rfl, hc⟩ := hcounts
      rw [if_pos hmode]
      exact lookupPublicSum_eq hc hlt
    · rename_i hmode
      rw [hcounts, if_neg hmode]
      rfl
  have htotal := columns_total hden
  rw [← hlookup] at htotal
  refine ⟨⟨cols, counts, htrace, fun rowIdx hrow =>
    ⟨length_entries rangeCheck _, fun batchIdx hb => pairs_agree hden hcells hrow hb⟩⟩,
    ⟨cols, counts, _, _, htrace, hcolumns, hboundary, htotal⟩, ?_⟩
  exact claimedSums_eq_ok htrace hcolumns hboundary htotal hcounts

/-- The denominators of challenges `z` and `alpha`, over the base field itself. -/
def challengeCombine (z alpha : M31) (_ : RelationId) (values : List M31) : M31 :=
  values.foldr (fun v sum => v + alpha * sum) 0 - z

/-- With `alpha = 0` and `z = -1` a state's denominator is its sample index plus one. -/
theorem challengeCombine_state (r : RelationId) (s k : ℕ) (acc addend : List ℕ) :
    challengeCombine (-1) 0 r (stateFromLimbs s k acc addend) = fromU32Unchecked s + 1 := by
  have e : stateFromLimbs s k acc addend = fromU32Unchecked s ::
      (stateFromLimbs s k acc addend).tail := rfl
  rw [e, challengeCombine, List.foldr_cons, zero_mul, add_zero, sub_neg_eq_add]

/-- Nor does that of a chunk vanish. -/
theorem challengeCombine_chunk (r : RelationId) {v : ℕ} (hv : v < 2 ^ 29) :
    challengeCombine (-1) 0 r [fromU32Unchecked v] ≠ 0 := by
  have e : challengeCombine (-1) 0 r [fromU32Unchecked v] = ((v + 1 : ℕ) : M31) := by
    simp [challengeCombine, fromU32Unchecked]
  rw [e]
  intro h
  have hval := congrArg ZMod.val h
  rw [val_natCast_of_lt (by omega), ZMod.val_zero] at hval
  omega

theorem getD_allRows (cases : List TestCase) (K n i : ℕ) :
    (allRows cases K n).getD i Row.zero ∈ traceRows cases K ∨
      (allRows cases K n).getD i Row.zero = Row.zero := by
  rcases Nat.lt_or_ge i (traceRows cases K).length with h | h
  · rw [getD_allRows_of_lt h]
    exact Or.inl (List.getElem_mem h)
  · rw [length_traceRows] at h
    exact Or.inr (getD_allRows_of_ge h)

/-- The rows of the table have small chunks. -/
theorem chunk_lt_of_allRows {cases : List TestCase} {K n i j : ℕ} (hj : j < LIMBS) :
    (splitLookupChunks (((allRows cases K n).getD i Row.zero).next.getD j 0)).1 < 2 ^ 29 ∧
      (splitLookupChunks (((allRows cases K n).getD i Row.zero).next.getD j 0)).2 < 2 ^ 29 := by
  rcases getD_allRows cases K n i with hrow | hrow
  · obtain ⟨s, k, a, b, e⟩ := mem_traceRows hrow
    obtain ⟨hlo, hhi⟩ := (additionRow_inRange s k a b).chunks j hj
    have hbits : lookupHighBits j ≤ 29 := (Nat.sub_le _ _).trans (limbBits_le j)
    rw [e]
    exact ⟨hlo.trans (by decide), hhi.trans_le (Nat.pow_le_pow_right (by decide) hbits)⟩
  · have hzero : Row.zero.next.getD j 0 = 0 := getD_replicate_self _ j 0
    rw [hrow, hzero]
    decide

theorem sampleCase_nonzero :
    NonzeroDenominators (challengeCombine (-1) 0) .lookup [sampleCase] 2 := by
  intro b hb call hcall frac hfrac lane
  rw [mainBatchedFraction_eq hb] at hfrac
  obtain rfl := Option.some.inj hfrac
  rw [packedRows_eq (le_paddedRows _)] at hcall
  obtain ⟨v, _, rfl⟩ := List.mem_map.mp hcall
  by_cases h0 : b = 0
  · have hlane : (lanes (allRows [sampleCase] 2 (paddedRows 2)) v lane).sampleId = 0 := by
      have hall : ∀ row ∈ traceRows [sampleCase] 2, row.sampleId = 0 := by decide
      rcases getD_allRows [sampleCase] 2 (paddedRows 2) (LANE_COUNT * v + lane) with hrow | hrow
      · exact hall _ hrow
      · exact congrArg Row.sampleId hrow
    have hden : (batchFraction (challengeCombine (-1) 0) b
        (lanes (allRows [sampleCase] 2 (paddedRows 2)) v)).denominator lane = (0 + 1) * (0 + 1) := by
      rw [batchFraction, if_pos h0]
      simp only [stateTransitionFraction, Pi.mul_apply, combinePacked_packedState,
        challengeCombine_state, hlane]
      rfl
    intro h
    exact absurd (hden.symm.trans h) (by decide)
  · have hb' : b - 1 < LIMBS := by
      rw [mainInteractionBatches, if_pos rfl] at hb
      omega
    obtain ⟨hlo, hhi⟩ := @chunk_lt_of_allRows [sampleCase] 2 (paddedRows 2)
      (LANE_COUNT * v + lane) (b - 1) hb'
    show (batchFraction _ b _).denominator lane ≠ 0
    rw [batchFraction, if_neg h0, lookupRangeFraction]
    dsimp only
    split_ifs
    · exact mul_ne_zero (challengeCombine_chunk _ hlo) (challengeCombine_chunk _ hhi)
    · exact mul_ne_zero (challengeCombine_chunk _ hlo) (challengeCombine_chunk _ hhi)

/-- The theorem with lookups, at `5 + 2 * 7`. -/
theorem claimedSums_balance_sample :
    Balanced (challengeCombine (-1) 0) .lookup [sampleCase] 2 :=
  claimedSums_balance (challengeCombine (-1) 0) .lookup
    (checkFixtureOutputs_eq_ok.mpr fun c hc => by
      rw [List.mem_singleton.mp hc]
      exact sampleCase_honest)
    (by decide) (by decide) sampleCase_nonzero

end Checks

end GroverTax.NativeAir
