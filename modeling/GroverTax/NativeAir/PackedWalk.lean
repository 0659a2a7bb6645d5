/-
  File:      GroverTax/NativeAir/PackedWalk.lean
  Subject:   The two walks over the trace of benchmarks/stwo/iadd256/native-air/src/main.rs:
             `generate_main_trace` and `for_each_packed_row`, loop by loop.

  Both spell out the same two nested loops; `forEachRow` has what they do with a row as a parameter.

  * `forEachRow_eq` -- the nested loops are one run over the numbered rows of the trace;
  * `forEachPackedRow_eq` -- the walk over vectors calls its callback as `packedRows` says;
  * `walks_agree` -- **every vector is visited once, in order, and its lanes are the rows that the
    main trace writes at their indices, zeros behind the last one.**
-/
import GroverTax.Lib.Loop
import GroverTax.NativeAir.Interaction

namespace GroverTax.NativeAir

open GroverTax.Lib

/-! ## 1. The loops -/

section Code

variable {S : Type}

/-- `for rep_idx in 0..repetitions`, from a repetition on; the last index is returned. -/
def forEachRep (body : S → ℕ → Row → Option S) (sampleIdx : ℕ) (addend : List ℕ) :
    ℕ → ℕ → S → ℕ → List ℕ → Option (S × ℕ)
  | _, 0, s, rowIdx, _ => some (s, rowIdx)
  | repIdx, n + 1, s, rowIdx, acc => do
      let (next, carry) := addLimbs acc addend
      let row : Row :=
        { isReal := 1, sampleId := asU32 sampleIdx, repIdx := asU32 repIdx,
          acc, addend, next, carry }
      let s ← body s rowIdx row
      forEachRep body sampleIdx addend (repIdx + 1) n s (rowIdx + 1) next

/-- `for (sample_idx, case) in cases.iter().enumerate()`, from a sample on. -/
def forEachCase (body : S → ℕ → Row → Option S) (repetitions : ℕ) :
    ℕ → List TestCase → S → ℕ → Option (S × ℕ)
  | _, [], s, rowIdx => some (s, rowIdx)
  | sampleIdx, case :: cases, s, rowIdx => do
      let addend := biguintToLimbs case.r1In
      let acc := biguintToLimbs case.r0In
      let (s, rowIdx) ← forEachRep body sampleIdx addend 0 repetitions s rowIdx acc
      forEachCase body repetitions (sampleIdx + 1) cases s rowIdx

/-- Both loops, from row 0 on. -/
def forEachRow (body : S → ℕ → Row → Option S) (cases : List TestCase) (repetitions : ℕ) (s : S) :
    Option (S × ℕ) :=
  forEachCase body repetitions 0 cases s 0

/-- `generate_main_trace`, less the evaluation domain. -/
def generateMainTraceWalk (cases : List TestCase) (repetitions paddedRows : ℕ)
    (rangeCheck : RangeCheckMode) : Option (Cols × Option LookupCounts) := do
  let cols := Cols.zeros (traceColumns rangeCheck) paddedRows
  let lookupCounts := if rangeCheck = .lookup then some LookupCounts.new else none
  let (s, _) ← forEachRow (fun s rowIdx row => writeTraceRow rangeCheck s (row, rowIdx)) cases
    repetitions (cols, lookupCounts)
  return s

/-- What both loops of `for_each_packed_row` do with a row; `s.1` is what the callback holds. -/
def packLane (f : S → ℕ → Packed Row → S) (s : S × Packed Row) (rowIdx : ℕ) (row : Row) :
    S × Packed Row :=
  let laneRows := Function.update s.2 ⟨rowIdx % LANE_COUNT, Nat.mod_lt _ (by decide)⟩ row
  if rowIdx % LANE_COUNT = LANE_COUNT - 1 then
    (f s.1 (rowIdx / LANE_COUNT) laneRows, fun _ => Row.zero)
  else (s.1, laneRows)

/-- `for_each_packed_row` with a callback that changes `s`. The last loop is left after at most
    `padded_rows` turns. -/
def forEachPackedRow (cases : List TestCase) (repetitions paddedRows : ℕ)
    (f : S → ℕ → Packed Row → S) (s : S) : Option S := do
  let (st, rowIdx) ← forEachRow (fun st rowIdx row => some (packLane f st rowIdx row)) cases
    repetitions (s, fun _ => Row.zero)
  let (st, _) ← loopUntil (fun p => !decide (p.2 < paddedRows))
    (fun p => some (packLane f p.1 p.2 Row.zero, p.2 + 1)) (paddedRows + 1) (st, rowIdx)
  return st.1

end Code

/-- The rows that `generate_main_trace` writes, each with its index. -/
def mainTraceWrites (cases : List TestCase) (repetitions : ℕ) : Option (List (ℕ × Row)) :=
  (forEachRow (fun log rowIdx row => some (log ++ [(rowIdx, row)])) cases repetitions []).map
    Prod.fst

/-! ## 2. One run -/

section Run

variable {S : Type} {body : S → ℕ → Row → Option S}

theorem forEachRep_eq (body : S → ℕ → Row → Option S) (sampleIdx : ℕ) (addend : List ℕ) :
    ∀ (n repIdx : ℕ) (s : S) (rowIdx : ℕ) (acc : List ℕ),
      forEachRep body sampleIdx addend repIdx n s rowIdx acc =
        (run (fun s p => body s p.2 p.1) s
          ((repRows sampleIdx addend repIdx n acc).zipIdx rowIdx)).map (·, rowIdx + n)
  | 0, _, _, _, _ => rfl
  | n + 1, repIdx, s, rowIdx, acc => by
      rw [forEachRep, repRows]
      dsimp only
      rw [List.zipIdx_cons, run_cons]
      dsimp only
      cases body s rowIdx _ with
      | none => rfl
      | some s1 =>
        rw [show rowIdx + (n + 1) = rowIdx + 1 + n by omega]
        exact forEachRep_eq body sampleIdx addend n (repIdx + 1) s1 (rowIdx + 1) _

theorem length_caseRows (K : ℕ) (p : TestCase × ℕ) : (caseRows K p).length = K := by
  rw [caseRows_eq, List.length_map, List.length_range]

theorem forEachCase_eq (body : S → ℕ → Row → Option S) (K : ℕ) :
    ∀ (cases : List TestCase) (sampleIdx : ℕ) (s : S) (rowIdx : ℕ),
      forEachCase body K sampleIdx cases s rowIdx =
        (run (fun s p => body s p.2 p.1) s
          (((cases.zipIdx sampleIdx).flatMap (caseRows K)).zipIdx rowIdx)).map
            (·, rowIdx + cases.length * K)
  | [], _, _, rowIdx => by
      rw [List.length_nil, Nat.zero_mul]
      rfl
  | case :: cases, sampleIdx, s, rowIdx => by
      rw [forEachCase]
      dsimp only
      rw [forEachRep_eq, List.zipIdx_cons, List.flatMap_cons, List.zipIdx_append, run_append,
        length_caseRows]
      show Option.bind (Option.map _ (run _ s ((caseRows K (case, sampleIdx)).zipIdx rowIdx))) _ = _
      cases run (fun s p => body s p.2 p.1) s ((caseRows K (case, sampleIdx)).zipIdx rowIdx) with
      | none => rfl
      | some s1 =>
        rw [Option.map_some, Option.bind_some, Option.bind_some, forEachCase_eq body K cases,
          List.length_cons, Nat.succ_mul, Nat.add_comm (cases.length * K) K, Nat.add_assoc]

/-- **The nested loops are one run over the numbered rows.** -/
theorem forEachRow_eq (body : S → ℕ → Row → Option S) (cases : List TestCase) (K : ℕ) (s : S) :
    forEachRow body cases K s =
      (run (fun s p => body s p.2 p.1) s (traceRows cases K).zipIdx).map
        (·, cases.length * K) := by
  rw [forEachRow, forEachCase_eq, Nat.zero_add]
  rfl

theorem generateMainTraceWalk_eq (cases : List TestCase) (K n : ℕ) (rangeCheck : RangeCheckMode) :
    generateMainTraceWalk cases K n rangeCheck = generateMainTrace cases K n rangeCheck := by
  unfold generateMainTraceWalk generateMainTrace
  dsimp only
  rw [forEachRow_eq]
  cases run (fun s p => writeTraceRow rangeCheck s (p.1, p.2)) _ (traceRows cases K).zipIdx <;> rfl

/-- The writes are the rows of the trace, numbered. -/
theorem mainTraceWrites_eq (cases : List TestCase) (K : ℕ) : mainTraceWrites cases K =
    some ((traceRows cases K).zipIdx.map Prod.swap) := by
  have hlog : ∀ (ps : List (Row × ℕ)) (log : List (ℕ × Row)),
      run (fun log p => some (log ++ [(p.2, p.1)])) log ps = some (log ++ ps.map Prod.swap) := by
    intro ps
    induction ps with
    | nil => exact fun log => congrArg some (List.append_nil log).symm
    | cons p ps ih =>
      intro log
      rw [run_cons, Option.bind_some, ih, List.append_assoc]
      rfl
  rw [mainTraceWrites, forEachRow_eq, hlog]
  rfl

end Run

/-! ## 3. The walk over vectors -/

section Walk

variable {S : Type} {f : S → ℕ → Packed Row → S} {cases : List TestCase} {K n : ℕ}
  {rangeCheck : RangeCheckMode}

/-- The state of the walk after the calls of `p`. -/
def walkOf (f : S → ℕ → Packed Row → S) (s : S) (p : PackState) : S × Packed Row :=
  (p.calls.foldl (fun s call => f s call.1 call.2) s, p.laneRows)

/-- **One row**, and the index after it. -/
theorem packLane_walkOf (f : S → ℕ → Packed Row → S) (s : S) (p : PackState) (row : Row) :
    packLane f (walkOf f s p) p.rowIdx row = walkOf f s (packRow p row) ∧
      (packRow p row).rowIdx = p.rowIdx + 1 := by
  unfold packLane packRow walkOf
  dsimp only
  split_ifs
  · rw [List.foldl_append]
    exact ⟨rfl, rfl⟩
  · exact ⟨rfl, rfl⟩

theorem run_packLane (f : S → ℕ → Packed Row → S) (s : S) : ∀ (rows : List Row) (p : PackState),
    run (fun st q => some (packLane f st q.2 q.1)) (walkOf f s p) (rows.zipIdx p.rowIdx) =
      some (walkOf f s (rows.foldl packRow p))
  | [], _ => rfl
  | row :: rows, p => by
      obtain ⟨hrow, hidx⟩ := packLane_walkOf f s p row
      rw [List.zipIdx_cons, run_cons, hrow, Option.bind_some, ← hidx, List.foldl_cons]
      exact run_packLane f s rows (packRow p row)

theorem rowIdx_foldl_packRow : ∀ (rows : List Row) (p : PackState),
    (rows.foldl packRow p).rowIdx = p.rowIdx + rows.length
  | [], _ => rfl
  | row :: rows, p => by
      rw [List.foldl_cons, rowIdx_foldl_packRow rows, (packLane_walkOf (fun _ _ _ => ()) () p row).2,
        List.length_cons]
      omega

/-- **The padding loop** packs zero rows up to the limit. -/
theorem loopUntil_packLane (f : S → ℕ → Packed Row → S) (s : S) (n : ℕ) :
    ∀ (fuel : ℕ) (p : PackState), n - p.rowIdx < fuel →
      ∃ last, loopUntil (fun q => !decide (q.2 < n))
        (fun q => some (packLane f q.1 q.2 Row.zero, q.2 + 1)) fuel (walkOf f s p, p.rowIdx) =
          some (walkOf f s ((List.replicate (n - p.rowIdx) Row.zero).foldl packRow p), last)
  | 0, _, hlt => absurd hlt (Nat.not_lt_zero _)
  | fuel + 1, p, hlt => by
      by_cases h : p.rowIdx < n
      · obtain ⟨hrow, hidx⟩ := packLane_walkOf f s p Row.zero
        obtain ⟨last, hloop⟩ := loopUntil_packLane f s n fuel (packRow p Row.zero) (by omega)
        have hsucc : n - p.rowIdx = n - (packRow p Row.zero).rowIdx + 1 := by omega
        refine ⟨last, ?_⟩
        rw [loopUntil_of_not_done (by simp [h]), Option.bind_some, hrow, ← hidx, hloop, hsucc,
          List.replicate_succ, List.foldl_cons]
      · refine ⟨p.rowIdx, ?_⟩
        rw [loopUntil_of_done (by simp [h]), Nat.sub_eq_zero_of_le (Nat.le_of_not_lt h)]
        rfl

/-- **The walk calls its callback as `packedRows` says.** -/
theorem forEachPackedRow_eq (cases : List TestCase) (K n : ℕ) (f : S → ℕ → Packed Row → S)
    (s : S) : forEachPackedRow cases K n f s =
      some ((packedRows cases K n).foldl (fun s call => f s call.1 call.2) s) := by
  have hrows : run (fun st q => some (packLane f st q.2 q.1)) (s, fun _ => Row.zero)
      (traceRows cases K).zipIdx =
        some (walkOf f s ((traceRows cases K).foldl packRow ⟨fun _ => Row.zero, 0, []⟩)) :=
    run_packLane f s (traceRows cases K) ⟨fun _ => Row.zero, 0, []⟩
  have hidx := rowIdx_foldl_packRow (traceRows cases K) ⟨fun _ => Row.zero, 0, []⟩
  rw [length_traceRows, Nat.zero_add] at hidx
  obtain ⟨last, hloop⟩ := loopUntil_packLane f s n (n + 1)
    ((traceRows cases K).foldl packRow ⟨fun _ => Row.zero, 0, []⟩) (by omega)
  rw [hidx] at hloop
  simp only [forEachPackedRow, forEachRow_eq, hrows, Option.map_some, Option.bind_eq_bind,
    Option.bind_some, hloop, Option.pure_def, packedRows, hidx]
  rfl

/-- A padding row is a row of zeros, in every mode. -/
theorem rowCells_zero (rangeCheck : RangeCheckMode) :
    rowCells rangeCheck Row.zero = List.replicate (traceColumns rangeCheck) 0 := by
  cases rangeCheck <;> decide +kernel

/-- **The two walks agree.** With a multiple of 16 rows that holds the trace, vector `v` is the
    callback's `v`th call and every row written is in one of them; each lane is the one row that the
    main trace writes at its index, or zero where it writes none, and the table holds its cells. -/
theorem walks_agree (hn : n % LANE_COUNT = 0) (hle : cases.length * K ≤ n)
    (rangeCheck : RangeCheckMode) : ∃ writes cols counts, ∃ vectors : ℕ → Packed Row,
    mainTraceWrites cases K = some writes ∧
    writes.map Prod.fst = List.range (cases.length * K) ∧
    (∀ p ∈ writes, p.1 / LANE_COUNT < n / LANE_COUNT) ∧
    generateMainTraceWalk cases K n rangeCheck = some (cols, counts) ∧
    (∀ (S : Type) (f : S → ℕ → Packed Row → S) (s : S), forEachPackedRow cases K n f s =
      some ((List.range (n / LANE_COUNT)).foldl (fun s v => f s v (vectors v)) s)) ∧
    ∀ v < n / LANE_COUNT, ∀ lane : Fin LANE_COUNT,
      (if v * LANE_COUNT + lane < cases.length * K then
        (v * LANE_COUNT + (lane : ℕ), vectors v lane) ∈ writes
      else vectors v lane = Row.zero) ∧
      cols.row (v * LANE_COUNT + lane) = fun c =>
        fromU32Unchecked ((rowCells rangeCheck (vectors v lane)).getD c 0) := by
  obtain ⟨cols, counts, htrace, -, -, hcells, hzero⟩ :=
    @generateMainTrace_spec rangeCheck n cases K hle
  have hindices : ((traceRows cases K).zipIdx.map Prod.swap).map Prod.fst =
      List.range (cases.length * K) := by
    rw [List.map_map, ← length_traceRows, List.range_eq_range']
    exact List.zipIdx_map_snd 0 (traceRows cases K)
  refine ⟨_, cols, counts, lanes (allRows cases K n), mainTraceWrites_eq cases K, hindices, ?_,
    (generateMainTraceWalk_eq cases K n rangeCheck).trans htrace, ?_, ?_⟩
  · intro p hp
    have hmem := List.mem_map_of_mem (f := Prod.fst) hp
    rw [hindices, List.mem_range] at hmem
    have hL : LANE_COUNT = 16 := rfl
    rw [hL] at hn ⊢
    omega
  · intro S f s
    rw [forEachPackedRow_eq, packedRows_eq hle, List.foldl_map]
  · intro v _ lane
    rw [lanes, Nat.mul_comm LANE_COUNT v]
    by_cases hreal : v * LANE_COUNT + lane < cases.length * K
    · have hi : v * LANE_COUNT + lane < (traceRows cases K).length := by
        rw [length_traceRows]
        exact hreal
      have hmem : ((traceRows cases K)[v * LANE_COUNT + lane], v * LANE_COUNT + (lane : ℕ)) ∈
          (traceRows cases K).zipIdx :=
        List.mem_zipIdx_iff_getElem?.mpr (List.getElem?_eq_getElem hi)
      rw [if_pos hreal, getD_allRows_of_lt hi]
      exact ⟨List.mem_map.mpr ⟨_, hmem, rfl⟩, hcells _ hmem⟩
    · have hge := Nat.le_of_not_lt hreal
      rw [if_neg hreal, getD_allRows_of_ge hge, hzero _ hge, rowCells_zero]
      refine ⟨rfl, funext fun c => ?_⟩
      rw [getD_replicate_self]
      exact Nat.cast_zero.symm

/-- Three cases of seven additions in the 32 rows of two vectors. -/
theorem walks_agree_three : ∃ writes, ∃ vectors : ℕ → Packed Row,
    mainTraceWrites [⟨0, 1, ""⟩, ⟨5, 7, ""⟩, ⟨2 ^ 256 - 1, 3, ""⟩] 7 = some writes ∧
    writes.length = 21 ∧ vectors 1 ⟨5, by decide⟩ = Row.zero ∧
    forEachPackedRow [⟨0, 1, ""⟩, ⟨5, 7, ""⟩, ⟨2 ^ 256 - 1, 3, ""⟩] 7 32
      (fun calls v rows => calls ++ [(v, rows)]) [] =
        some [(0, vectors 0), (1, vectors 1)] := by
  obtain ⟨writes, _, _, vectors, hwrites, hindices, -, -, hwalk, hlanes⟩ :=
    @walks_agree [⟨0, 1, ""⟩, ⟨5, 7, ""⟩, ⟨2 ^ 256 - 1, 3, ""⟩] 7 32 rfl (by decide) .off
  refine ⟨writes, vectors, hwrites, ?_, (hlanes 1 (by decide) ⟨5, by decide⟩).1, hwalk _ _ _⟩
  rw [← List.length_map, hindices]
  rfl

end Walk

end GroverTax.NativeAir
