/-
  File:      GroverTax/NativeAir/MainTrace.lean
  Subject:   The witness generator of benchmarks/stwo/iadd256/native-air/src/main.rs: the rows of
             `generate_main_trace`, the columns they are written to, the lookup counters.

  * `traceRows` -- the rows the two nested loops visit, in order; `generate_main_trace` and
    `for_each_packed_row` run the same loops;
  * `generateMainTrace` -- every row written cell by cell, every chunk counted. An index out of
    bounds is a panic, `none` here;
  * `generateMainTrace_spec` -- it does not panic, row `i` of the table holds the cells of row `i`,
    and the rows after the last one hold zeros.
-/
import GroverTax.NativeAir.Air
import GroverTax.Lib.Run
import GroverTax.Lib.Chunks

namespace GroverTax.NativeAir

open GroverTax.Lib

/-! ## 1. Rows -/

/-- `as u32`. -/
def asU32 (v : ℕ) : ℕ := v % 2 ^ 32

structure Row where
  isReal : ℕ
  sampleId : ℕ
  repIdx : ℕ
  acc : List ℕ
  addend : List ℕ
  next : List ℕ
  carry : List ℕ
  deriving DecidableEq, Repr

def Row.zero : Row where
  isReal := 0
  sampleId := 0
  repIdx := 0
  acc := List.replicate LIMBS 0
  addend := List.replicate LIMBS 0
  next := List.replicate LIMBS 0
  carry := List.replicate LIMBS 0

/-- The loop of `add_limbs` over limbs `i, i + 1, …`: the sums and the carries. -/
def addLimbsFrom (a b : List ℕ) : ℕ → ℕ → ℕ → List ℕ × List ℕ
  | _, 0, _ => ([], [])
  | i, n + 1, carryIn =>
      let total := a.getD i 0 + b.getD i 0 + carryIn
      let out := asU32 (total &&& (limbBase i - 1))
      let carry := asU32 (total >>> limbBits i)
      let (outs, carries) := addLimbsFrom a b (i + 1) n carry
      (out :: outs, carry :: carries)

/-- A total is below `2 ^ 33`, so the sum in `u64` is exact. -/
def addLimbs (a b : List ℕ) : List ℕ × List ℕ := addLimbsFrom a b 0 LIMBS 0

/-- The loop over the repetitions of one case. -/
def repRows (sampleIdx : ℕ) (addend : List ℕ) : ℕ → ℕ → List ℕ → List Row
  | _, 0, _ => []
  | repIdx, n + 1, acc =>
      let (next, carry) := addLimbs acc addend
      { isReal := 1, sampleId := asU32 sampleIdx, repIdx := asU32 repIdx,
        acc, addend, next, carry } :: repRows sampleIdx addend (repIdx + 1) n next

/-- The rows of one case. -/
def caseRows (repetitions : ℕ) (p : TestCase × ℕ) : List Row :=
  repRows p.2 (biguintToLimbs p.1.r1In) 0 repetitions (biguintToLimbs p.1.r0In)

/-- The rows the loops over the cases and the repetitions visit. -/
def traceRows (cases : List TestCase) (repetitions : ℕ) : List Row :=
  cases.zipIdx.flatMap (caseRows repetitions)

/-! ## 2. Lookup chunks and counters -/

/-- The two chunks of a limb; the limb's index only occurs in the source's assertions. -/
def splitLookupChunks (value : ℕ) : ℕ × ℕ :=
  (value &&& ((1 <<< LOOKUP_CHUNK_BITS) - 1), value >>> LOOKUP_CHUNK_BITS)

structure LookupCounts where
  seq18 : List ℕ
  seq11 : List ℕ
  seq6 : List ℕ

def LookupCounts.new : LookupCounts where
  seq18 := List.replicate (1 <<< LOOKUP_CHUNK_BITS) 0
  seq11 := List.replicate (1 <<< (LIMB_BITS - LOOKUP_CHUNK_BITS)) 0
  seq6 := List.replicate (1 <<< (TOP_LIMB_BITS - LOOKUP_CHUNK_BITS)) 0

/-- `counts[i] += 1` on `u32` counters, wrapping as in a release build. -/
def increment (counts : List ℕ) (i : ℕ) : Option (List ℕ) :=
  if h : i < counts.length then some (counts.set i (asU32 (counts.get ⟨i, h⟩ + 1))) else none

/-- One round of `add_next_limbs`. -/
def addNextLimb (counts : LookupCounts) (p : ℕ × ℕ) : Option LookupCounts := do
  let (lo, hi) := splitLookupChunks p.1
  let seq18 ← increment counts.seq18 lo
  if p.2 + 1 = LIMBS then
    let seq6 ← increment counts.seq6 hi
    return { counts with seq18, seq6 }
  else
    let seq11 ← increment counts.seq11 hi
    return { counts with seq18, seq11 }

def addNextLimbs (counts : LookupCounts) (next : List ℕ) : Option LookupCounts :=
  run addNextLimb counts next.zipIdx

/-! ## 3. Columns -/

/-- The columns of a trace. -/
abbrev Cols := List (List M31)

def Cols.zeros (columns rows : ℕ) : Cols :=
  List.replicate columns (List.replicate rows 0)

def setCol (cols : Cols) (col row value : ℕ) : Option Cols := do
  let column ← cols[col]?
  if row < column.length then some (cols.set col (column.set row (fromU32Unchecked value)))
  else none

/-- A loop `for value in values` that sets one column after another. -/
def setCols (row : ℕ) (s : Cols × ℕ) (values : List ℕ) : Option (Cols × ℕ) :=
  run (fun s value => (setCol s.1 s.2 row value).map (·, s.2 + 1)) s values

/-- The values `write_limb_bits` sets, from limb `limbIdx` on. -/
def limbBitCells : ℕ → List ℕ → List ℕ
  | _, [] => []
  | limbIdx, limb :: limbs =>
      (List.range (limbBits limbIdx)).map (fun bitIdx => (limb >>> bitIdx) &&& 1) ++
        limbBitCells (limbIdx + 1) limbs

/-- The values `write_lookup_chunks` sets. -/
def lookupCells : List ℕ → List ℕ
  | [] => []
  | value :: next => (splitLookupChunks value).1 :: (splitLookupChunks value).2 :: lookupCells next

/-- The final `col` is the second component. -/
def writeRowToCols (rangeCheck : RangeCheckMode) (cols : Cols) (rowIdx : ℕ) (row : Row) :
    Option (Cols × ℕ) := do
  let s ← setCols rowIdx (cols, 0) [row.isReal, row.sampleId, row.repIdx]
  let s ← setCols rowIdx s row.acc
  let s ← setCols rowIdx s row.addend
  let s ← setCols rowIdx s row.next
  let s ← setCols rowIdx s row.carry
  match rangeCheck with
  | .off => return s
  | .bits =>
      let s ← setCols rowIdx s (limbBitCells 0 row.acc)
      let s ← setCols rowIdx s (limbBitCells 0 row.addend)
      setCols rowIdx s (limbBitCells 0 row.next)
  | .lookup => setCols rowIdx s (lookupCells row.next)

/-- One round of the loops of `generate_main_trace`. -/
def writeTraceRow (rangeCheck : RangeCheckMode) (s : Cols × Option LookupCounts)
    (p : Row × ℕ) : Option (Cols × Option LookupCounts) := do
  let (cols, _) ← writeRowToCols rangeCheck s.1 p.2 p.1
  match s.2 with
  | none => return (cols, none)
  | some counts => return (cols, some (← addNextLimbs counts p.1.next))

def generateMainTrace (cases : List TestCase) (repetitions paddedRows : ℕ)
    (rangeCheck : RangeCheckMode) : Option (Cols × Option LookupCounts) :=
  run (writeTraceRow rangeCheck)
    (Cols.zeros (traceColumns rangeCheck) paddedRows,
      if rangeCheck = .lookup then some LookupCounts.new else none)
    (traceRows cases repetitions).zipIdx

/-- `next_power_of_two`. -/
def nextPowerOfTwo (n : ℕ) : ℕ := 2 ^ Nat.clog 2 n

/-- The rows `main` asks for: a power of two, and at least four vectors of 16 lanes. -/
def paddedRows (targetRows : ℕ) : ℕ := max (nextPowerOfTwo targetRows) (1 <<< (4 + 2))

/-- Row `rowIdx` of a trace, as an evaluator reads it. -/
def Cols.row (cols : Cols) (rowIdx : ℕ) (col : ℕ) : M31 := (cols.getD col []).getD rowIdx 0

/-! ## 4. Writing a row -/

section Write

variable {cols : Cols} {n m row col : ℕ}

/-- `n` columns of `m` cells. -/
def Cols.Shape (cols : Cols) (n m : ℕ) : Prop :=
  cols.length = n ∧ ∀ column ∈ cols, column.length = m

theorem zeros_shape (n m : ℕ) : (Cols.zeros n m).Shape n m := by
  refine ⟨List.length_replicate, fun column h => ?_⟩
  rw [List.eq_of_mem_replicate h, List.length_replicate]

theorem row_zeros (n m r c : ℕ) : (Cols.zeros n m).row r c = 0 := by
  show (((List.replicate n (List.replicate m (0 : M31)))[c]?).getD []).getD r 0 = 0
  rw [List.getElem?_replicate]
  split
  · exact getD_replicate_self m r 0
  · rfl

/-- There is nothing to read behind the last column. -/
theorem row_eq_zero (h : cols.Shape n m) {r c : ℕ} (hc : n ≤ c) : cols.row r c = 0 := by
  have e : cols.getD c [] = [] := List.getD_eq_default _ _ (h.1.symm ▸ hc)
  rw [Cols.row, e]
  rfl

/-- A cell inside the table is set, and no other one. -/
theorem setCol_spec (h : cols.Shape n m) (hc : col < n) (hr : row < m) (v : ℕ) :
    ∃ cols', setCol cols col row v = some cols' ∧ cols'.Shape n m ∧
      ∀ r c, cols'.row r c = if r = row ∧ c = col then fromU32Unchecked v else cols.row r c := by
  obtain ⟨hlen, hall⟩ := h
  have hc' : col < cols.length := hlen ▸ hc
  have hcol : (cols.get ⟨col, hc'⟩).length = m := hall _ (List.get_mem _ _)
  refine ⟨cols.set col ((cols.get ⟨col, hc'⟩).set row (fromU32Unchecked v)), ?_,
    ⟨by rw [List.length_set, hlen], fun column hm => ?_⟩, fun r c => ?_⟩
  · rw [setCol, List.getElem?_eq_getElem hc', Option.bind_eq_bind, Option.bind_some]
    exact if_pos (show row < (cols.get ⟨col, hc'⟩).length by omega)
  · rcases List.mem_or_eq_of_mem_set hm with hm | rfl
    · exact hall _ hm
    · rw [List.length_set, hcol]
  · show (((cols.set col ((cols.get ⟨col, hc'⟩).set row (fromU32Unchecked v)))[c]?).getD []).getD
      r 0 = _
    rw [List.getElem?_set]
    by_cases e : col = c
    · subst e
      rw [if_pos rfl, if_pos hc', Option.getD_some, List.getD_eq_getElem?_getD, List.getElem?_set,
        hcol]
      by_cases er : row = r
      · subst er
        rw [if_pos rfl, if_pos hr, if_pos ⟨rfl, rfl⟩, Option.getD_some]
      · rw [if_neg er, if_neg fun h => er h.1.symm, Cols.row, List.getD_eq_getElem _ _ hc',
          List.getD_eq_getElem?_getD]
        rfl
    · rw [if_neg e, if_neg fun h => e h.2.symm, ← List.getD_eq_getElem?_getD]
      rfl

/-- **Consecutive columns of one row are set**, and no other cell. -/
theorem setCols_spec (hr : row < m) : ∀ (values : List ℕ) {cols : Cols} {col : ℕ},
    cols.Shape n m → col + values.length ≤ n →
      ∃ cols', setCols row (cols, col) values = some (cols', col + values.length) ∧
        cols'.Shape n m ∧
        ∀ r c, cols'.row r c =
          if r = row ∧ col ≤ c ∧ c < col + values.length
          then fromU32Unchecked (values.getD (c - col) 0) else cols.row r c
  | [], cols, col, h, _ => ⟨cols, rfl, h, fun r c => by
      rw [if_neg]
      intro h'
      obtain ⟨_, h1, h2⟩ := h'
      simp only [List.length_nil] at h2
      omega⟩
  | v :: values, cols, col, h, hle => by
      rw [List.length_cons] at hle
      obtain ⟨cols1, h1, hs1, hr1⟩ := setCol_spec h (show col < n by omega) hr v
      obtain ⟨cols2, h2, hs2, hr2⟩ := @setCols_spec hr values cols1 (col + 1) hs1 (by omega)
      refine ⟨cols2, ?_, hs2, fun r c => ?_⟩
      · rw [setCols, run_cons, h1, Option.map_some, Option.bind_some, List.length_cons,
          ← Nat.add_assoc, Nat.add_right_comm]
        exact h2
      · rw [hr2, hr1, List.length_cons]
        by_cases er : r = row
        · by_cases ec : c = col
          · subst ec
            rw [if_neg (by omega), if_pos ⟨er, rfl⟩, if_pos (by omega), Nat.sub_self,
              List.getD_cons_zero]
          · by_cases hin : col + 1 ≤ c ∧ c < col + 1 + values.length
            · rw [if_pos ⟨er, hin⟩, if_pos (by omega),
                show c - col = c - (col + 1) + 1 by omega, List.getD_cons_succ]
            · rw [if_neg fun h => hin h.2, if_neg fun h => ec h.2, if_neg (by omega)]
        · rw [if_neg fun h => er h.1, if_neg fun h => er h.1, if_neg fun h => er h.1]

/-- The values of a row, in the order they are set. -/
def rowCells (rangeCheck : RangeCheckMode) (row : Row) : List ℕ :=
  [row.isReal, row.sampleId, row.repIdx] ++ row.acc ++ row.addend ++ row.next ++ row.carry ++
    match rangeCheck with
    | .off => []
    | .bits => limbBitCells 0 row.acc ++ limbBitCells 0 row.addend ++ limbBitCells 0 row.next
    | .lookup => lookupCells row.next

theorem setCols_append (row : ℕ) (s : Cols × ℕ) (xs ys : List ℕ) :
    setCols row s (xs ++ ys) = (setCols row s xs).bind fun s => setCols row s ys :=
  run_append _ _ _

/-- A row is one run over consecutive columns. -/
theorem writeRowToCols_eq (rangeCheck : RangeCheckMode) (cols : Cols) (rowIdx : ℕ) (row : Row) :
    writeRowToCols rangeCheck cols rowIdx row =
      setCols rowIdx (cols, 0) (rowCells rangeCheck row) := by
  cases rangeCheck <;>
    simp only [writeRowToCols, rowCells, setCols_append, Option.bind_eq_bind, Option.pure_def,
      Option.bind_fun_some, List.append_assoc, List.append_nil]

end Write

/-! ## 5. The rows of honest additions -/

section Rows

variable {a b s k : ℕ}

/-- The carries of `a + b`, out of every limb. -/
def carriesOut (a b : ℕ) : List ℕ :=
  (List.range LIMBS).map fun i => carryInto limbOffset a b (i + 1)

theorem asU32_of_lt {v : ℕ} (h : v < 2 ^ 32) : asU32 v = v := Nat.mod_eq_of_lt h

theorem asU32_add (u v : ℕ) : asU32 (asU32 u + v) = asU32 (u + v) := Nat.mod_add_mod ..

/-- The loop of `add_limbs` over limbs `i, …, i + n - 1` of two registers. -/
theorem addLimbsFrom_eq (a b : ℕ) : ∀ (n i : ℕ), i + n ≤ LIMBS →
    addLimbsFrom (biguintToLimbs a) (biguintToLimbs b) i n (carryInto limbOffset a b i) =
      ((List.range' i n).map (limb (a + b)),
        (List.range' i n).map fun i => carryInto limbOffset a b (i + 1))
  | 0, _, _ => rfl
  | n + 1, i, h => by
      have ih := addLimbsFrom_eq a b n (i + 1) (by omega)
      have hi : i < LIMBS := by omega
      have hout : asU32 ((limb a i + limb b i + carryInto limbOffset a b i) &&& (limbBase i - 1)) =
          limb (a + b) i := by
        have hlt : digit limbOffset limbBits (a + b) i < 2 ^ 29 := limb_lt (a + b) i
        rw [limbBase_eq, Nat.and_two_pow_sub_one_eq_mod, ← digit_add, asU32_of_lt (by omega)]
      have hcarry : asU32 ((limb a i + limb b i + carryInto limbOffset a b i) >>> limbBits i) =
          carryInto limbOffset a b (i + 1) := by
        have hle := @carryInto_le_one limbOffset a b (i + 1)
        rw [Nat.shiftRight_eq_div_pow, ← carryInto_succ limbOffset_succ, asU32_of_lt (by omega)]
      simp only [addLimbsFrom, getD_biguintToLimbs _ hi, hout, hcarry, ih, List.range'_succ,
        List.map_cons]

/-- **`add_limbs` adds registers modulo `2 ^ 256`**, and returns the carries. -/
theorem addLimbs_eq (a b : ℕ) : addLimbs (biguintToLimbs a) (biguintToLimbs b) =
    (biguintToLimbs (a + b), carriesOut a b) := by
  have h := addLimbsFrom_eq a b LIMBS 0 (Nat.le_refl _)
  rw [carryInto_zero rfl] at h
  rw [addLimbs, h, biguintToLimbs_eq_digit, carriesOut, List.range_eq_range']

/-- The row of the addition `a + b`. -/
def additionRow (s k a b : ℕ) : Row where
  isReal := 1
  sampleId := asU32 s
  repIdx := asU32 k
  acc := biguintToLimbs a
  addend := biguintToLimbs b
  next := biguintToLimbs (a + b)
  carry := carriesOut a b

/-- **The repetitions of a case**: row `j` adds the addend to the `j`th sum. -/
theorem repRows_eq (s b : ℕ) : ∀ (n k a : ℕ),
    repRows s (biguintToLimbs b) k n (biguintToLimbs a) =
      (List.range n).map fun j => additionRow s (k + j) (a + j * b) b
  | 0, _, _ => rfl
  | n + 1, k, a => by
      rw [repRows, addLimbs_eq, List.range_succ_eq_map, List.map_cons, List.map_map]
      dsimp only
      rw [repRows_eq s b n (k + 1) (a + b), Nat.zero_mul, Nat.add_zero, Nat.add_zero]
      refine congrArg _ (List.map_congr_left fun j _ => ?_)
      simp only [Function.comp, Nat.succ_eq_add_one]
      congr 1
      · omega
      · ring

theorem caseRows_eq (K : ℕ) (p : TestCase × ℕ) : caseRows K p =
    (List.range K).map fun j => additionRow p.2 j (p.1.r0In + j * p.1.r1In) p.1.r1In := by
  rw [caseRows, repRows_eq]
  simp only [Nat.zero_add]

theorem mem_traceRows {cases : List TestCase} {K : ℕ} {row : Row} (h : row ∈ traceRows cases K) :
    ∃ s k a b, row = additionRow s k a b := by
  obtain ⟨p, _, hp⟩ := List.mem_flatMap.mp h
  rw [caseRows_eq] at hp
  obtain ⟨j, _, rfl⟩ := List.mem_map.mp hp
  exact ⟨_, _, _, _, rfl⟩

theorem length_traceRows (cases : List TestCase) (K : ℕ) :
    (traceRows cases K).length = cases.length * K := by
  rw [traceRows, length_flatMap_const (k := K) fun p _ => by
    rw [caseRows_eq, List.length_map, List.length_range], List.length_zipIdx, Nat.mul_comm]

theorem limb_lt_base (v i : ℕ) : limb v i < limbBase i := by
  rw [limbBase_eq]
  exact digit_lt v i

/-- **Both chunks of a limb are inside their tables.** -/
theorem splitLookupChunks_lt {v i : ℕ} (h : v < limbBase i) :
    (splitLookupChunks v).1 < 2 ^ LOOKUP_CHUNK_BITS ∧
      (splitLookupChunks v).2 < 2 ^ lookupHighBits i := by
  have hw : LOOKUP_CHUNK_BITS + lookupHighBits i = limbBits i := by
    unfold lookupHighBits limbBits LOOKUP_CHUNK_BITS TOP_LIMB_BITS LIMB_BITS LIMBS
    split <;> rfl
  rw [limbBase_eq, ← hw, pow_add] at h
  unfold splitLookupChunks
  rw [Nat.one_shiftLeft, Nat.and_two_pow_sub_one_eq_mod, Nat.shiftRight_eq_div_pow]
  exact ⟨Nat.mod_lt _ (Nat.two_pow_pos _), Nat.div_lt_of_lt_mul h⟩

/-- The chunks make up the limb. -/
theorem splitLookupChunks_eq (v : ℕ) :
    (splitLookupChunks v).1 + (splitLookupChunks v).2 * 2 ^ LOOKUP_CHUNK_BITS = v := by
  unfold splitLookupChunks
  rw [Nat.one_shiftLeft, Nat.and_two_pow_sub_one_eq_mod, Nat.shiftRight_eq_div_pow]
  exact Nat.mod_add_div' v _

end Rows

/-! ## 6. Counting -/

section Count

variable {counts : List ℕ} {i : ℕ}

/-- The counter that a relation's chunks increment. -/
def LookupCounts.table (counts : LookupCounts) : RelationId → List ℕ
  | .state => []
  | .seq18 => counts.seq18
  | .seq11 => counts.seq11
  | .seq6 => counts.seq6

/-- What a limb looks up in a relation. -/
def chunkLookups (relation : RelationId) (p : ℕ × ℕ) : List ℕ :=
  if relation = .seq18 then [(splitLookupChunks p.1).1]
  else if relation = highRelation p.2 then [(splitLookupChunks p.1).2] else []

/-- What the sums of a row look up in a relation, limb by limb. -/
def rowLookups (relation : RelationId) (row : Row) : List ℕ :=
  row.next.zipIdx.flatMap (chunkLookups relation)

/-- A table of `2 ^ bits` counters that has counted `events`. -/
def Tally (bits : ℕ) (counts : List ℕ) (events : List ℕ) : Prop :=
  counts.length = 2 ^ bits ∧ ∀ v < 2 ^ bits, counts.getD v 0 = asU32 (events.count v)

theorem increment_spec {bits : ℕ} {events : List ℕ} (h : Tally bits counts events)
    (hi : i < 2 ^ bits) :
    ∃ counts', increment counts i = some counts' ∧ Tally bits counts' (events ++ [i]) := by
  obtain ⟨hlen, hval⟩ := h
  have hi' : i < counts.length := hlen ▸ hi
  have hget : counts.get ⟨i, hi'⟩ = asU32 (events.count i) := by
    rw [← hval i hi, List.getD_eq_getElem _ _ hi']
    rfl
  refine ⟨_, dif_pos hi', by rw [List.length_set, hlen], fun v hv => ?_⟩
  rw [List.getD_eq_getElem?_getD, List.getElem?_set, hget, asU32_add, List.count_append,
    List.count_singleton]
  by_cases e : i = v
  · rw [if_pos e, if_pos hi', Option.getD_some, e]
    simp
  · rw [if_neg e, ← List.getD_eq_getElem?_getD, hval v hv]
    simp [e]

/-- Every counter of a mode `Lookup` trace, after the lookups of `events`. -/
def LookupCounts.Tallied (counts : LookupCounts) (events : RelationId → List ℕ) : Prop :=
  ∀ r, r ≠ .state → Tally (tableBits r) (counts.table r) (events r)

theorem tally_zeros (bits : ℕ) : Tally bits (List.replicate (1 <<< bits) 0) [] := by
  rw [Nat.one_shiftLeft]
  refine ⟨List.length_replicate, fun v _ => ?_⟩
  rw [getD_replicate_self, List.count_nil]
  rfl

theorem new_tallied : LookupCounts.new.Tallied fun _ => [] := by
  intro r hr
  cases r with
  | state => exact absurd rfl hr
  | seq18 => exact tally_zeros _
  | seq11 => exact tally_zeros _
  | seq6 => exact tally_zeros _

/-- The counters with one table replaced. -/
def LookupCounts.setTable (counts : LookupCounts) : RelationId → List ℕ → LookupCounts
  | .state, _ => counts
  | .seq18, seq18 => { counts with seq18 }
  | .seq11, seq11 => { counts with seq11 }
  | .seq6, seq6 => { counts with seq6 }

theorem table_setTable {counts : LookupCounts} {r : RelationId} (hr : r ≠ .state) (table : List ℕ)
    (r' : RelationId) :
    (counts.setTable r table).table r' = if r' = r then table else counts.table r' := by
  cases r with
  | state => exact absurd rfl hr
  | _ => cases r' <;> rfl

/-- `add_next_limbs` on the two tables of a limb, for any way `inc` of incrementing a counter. -/
def addNextLimbWith (inc : List ℕ → ℕ → Option (List ℕ)) (counts : LookupCounts) (p : ℕ × ℕ) :
    Option LookupCounts :=
  (inc (counts.table .seq18) (splitLookupChunks p.1).1).bind fun low =>
    (inc (counts.table (highRelation p.2)) (splitLookupChunks p.1).2).map fun high =>
      (counts.setTable .seq18 low).setTable (highRelation p.2) high

theorem addNextLimb_eq (counts : LookupCounts) (p : ℕ × ℕ) :
    addNextLimb counts p = addNextLimbWith increment counts p := by
  unfold addNextLimb addNextLimbWith highRelation
  refine Option.bind_congr fun low _ => ?_
  split <;> exact Option.map_eq_bind.symm

/-- **A limb is counted once in each of its two tables.** -/
theorem addNextLimb_spec {counts : LookupCounts} {events : RelationId → List ℕ}
    (h : counts.Tallied events) {p : ℕ × ℕ} (hp : p.1 < limbBase p.2) :
    ∃ counts', addNextLimb counts p = some counts' ∧
      counts'.Tallied fun r => events r ++ chunkLookups r p := by
  obtain ⟨hlo, hhi⟩ := splitLookupChunks_lt hp
  rw [lookupHighBits_eq] at hhi
  obtain ⟨hstate, hne⟩ := highRelation_ne p.2
  obtain ⟨low, hlow, tlow⟩ := increment_spec (h .seq18 (by decide)) hlo
  obtain ⟨high, hhigh, thigh⟩ := increment_spec (h _ hstate) hhi
  refine ⟨(counts.setTable .seq18 low).setTable (highRelation p.2) high, ?_, fun r hr => ?_⟩
  · rw [addNextLimb_eq, addNextLimbWith, hlow, Option.bind_some, hhigh, Option.map_some]
  · show Tally _ _ (events r ++ chunkLookups r p)
    rw [table_setTable hstate, table_setTable (by decide), chunkLookups]
    by_cases h18 : r = .seq18
    · rw [h18, if_neg hne.symm, if_pos rfl, if_pos rfl]
      exact tlow
    · rw [if_neg h18, if_neg h18]
      by_cases hhigh : r = highRelation p.2
      · rw [if_pos hhigh, if_pos hhigh, hhigh]
        exact thigh
      · rw [if_neg hhigh, if_neg hhigh, List.append_nil]
        exact h r hr

/-- **The sums of a row are counted**, none outside its table. -/
theorem addNextLimbs_spec : ∀ (next : List ℕ) (i : ℕ) {counts : LookupCounts}
    {events : RelationId → List ℕ}, counts.Tallied events →
    (∀ p ∈ next.zipIdx i, p.1 < limbBase p.2) →
      ∃ counts', run addNextLimb counts (next.zipIdx i) = some counts' ∧
        counts'.Tallied fun r => events r ++ (next.zipIdx i).flatMap (chunkLookups r)
  | [], _, counts, events, h, _ => ⟨counts, rfl, by simpa using h⟩
  | v :: next, i, counts, events, h, hlt => by
      rw [List.zipIdx_cons, List.forall_mem_cons] at hlt
      obtain ⟨counts1, h1, t1⟩ := addNextLimb_spec h hlt.1
      obtain ⟨counts2, h2, t2⟩ := addNextLimbs_spec next (i + 1) t1 hlt.2
      refine ⟨counts2, ?_, ?_⟩
      · rw [List.zipIdx_cons, run_cons, h1]
        exact h2
      · simpa [List.zipIdx_cons, List.append_assoc] using t2

end Count

/-! ## 7. The trace -/

section Trace

variable {rangeCheck : RangeCheckMode} {n m : ℕ}

theorem length_limbBitCells : ∀ (limbs : List ℕ) (limbIdx : ℕ),
    (limbBitCells limbIdx limbs).length = limbBitColumns limbIdx limbs.length
  | [], _ => rfl
  | _ :: limbs, limbIdx => by
      rw [limbBitCells, List.length_append, List.length_map, List.length_range,
        length_limbBitCells limbs, List.length_cons, limbBitColumns, limbBitColumns,
        Finset.sum_range_succ', Nat.add_zero, Nat.add_comm]
      simp only [Nat.add_zero, Nat.add_assoc, Nat.add_comm 1]

theorem length_lookupCells : ∀ next : List ℕ, (lookupCells next).length = 2 * next.length
  | [] => rfl
  | _ :: next => by
      simp only [lookupCells, List.length_cons, length_lookupCells next]
      omega

@[simp] theorem length_carriesOut (a b : ℕ) : (carriesOut a b).length = LIMBS := by
  simp [carriesOut]

/-- **A row takes every column**: the last assertion of `write_row_to_cols`. -/
theorem length_rowCells (rangeCheck : RangeCheckMode) (s k a b : ℕ) :
    (rowCells rangeCheck (additionRow s k a b)).length = traceColumns rangeCheck := by
  have hcols : limbBitColumns 0 LIMBS = 256 := by decide
  cases rangeCheck with
  | off => simp [rowCells, additionRow, traceColumns, LIMBS]
  | bits =>
    simp only [rowCells, additionRow, List.length_append, length_limbBitCells,
      List.length_cons, List.length_nil, length_biguintToLimbs, length_carriesOut, hcols]
    decide
  | lookup => simp [rowCells, additionRow, length_lookupCells, traceColumns, LIMBS]

/-- The counters of a trace: none outside mode `Lookup`. -/
def CountsAre (counts : Option LookupCounts) (rangeCheck : RangeCheckMode)
    (events : RelationId → List ℕ) : Prop :=
  if rangeCheck = .lookup then ∃ c, counts = some c ∧ c.Tallied events else counts = none

theorem mem_zipIdx_limbs {v : ℕ} {p : ℕ × ℕ} (h : p ∈ (biguintToLimbs v).zipIdx) :
    p.1 < limbBase p.2 := by
  obtain ⟨h1, h2⟩ := List.mem_zipIdx' h
  rw [length_biguintToLimbs] at h1
  rw [h2, ← List.getD_eq_getElem _ 0, getD_biguintToLimbs v h1]
  exact limb_lt_base v p.2

/-- **One row is written and counted.** -/
theorem writeTraceRow_spec {st : Cols × Option LookupCounts} {events : RelationId → List ℕ}
    (h : st.1.Shape (traceColumns rangeCheck) m) (hc : CountsAre st.2 rangeCheck events)
    {i : ℕ} (hi : i < m) {row : Row} (hrow : ∃ s k a b, row = additionRow s k a b) :
    ∃ st', writeTraceRow rangeCheck st (row, i) = some st' ∧
      st'.1.Shape (traceColumns rangeCheck) m ∧
      CountsAre st'.2 rangeCheck (fun r => events r ++ rowLookups r row) ∧
      ∀ r, st'.1.row r = if r = i then fun c => fromU32Unchecked ((rowCells rangeCheck row).getD c 0)
        else st.1.row r := by
  obtain ⟨s, k, a, b, rfl⟩ := hrow
  have hlen := length_rowCells rangeCheck s k a b
  obtain ⟨cols', hw, hs', hr'⟩ := @setCols_spec _ _ _ hi
    (rowCells rangeCheck (additionRow s k a b)) _ 0 h (by omega)
  rw [← writeRowToCols_eq] at hw
  have hread : ∀ r, cols'.row r = if r = i then fun c =>
      fromU32Unchecked ((rowCells rangeCheck (additionRow s k a b)).getD c 0) else st.1.row r := by
    intro r
    funext c
    rw [hr', hlen]
    by_cases er : r = i
    · rw [if_pos er]
      by_cases hc' : c < traceColumns rangeCheck
      · rw [if_pos (by omega), Nat.sub_zero]
      · rw [if_neg (by omega), row_eq_zero h (Nat.le_of_not_lt hc'), List.getD_eq_default _ _
          (by omega)]
        exact Nat.cast_zero.symm
    · rw [if_neg er, if_neg fun h => er h.1]
  obtain ⟨cols, counts⟩ := st
  unfold CountsAre at hc ⊢
  split at hc
  · rename_i hmode
    obtain ⟨c, rfl, hc⟩ := hc
    obtain ⟨c', h1, t1⟩ := addNextLimbs_spec (additionRow s k a b).next 0 hc
      fun p hp => mem_zipIdx_limbs hp
    refine ⟨(cols', some c'), ?_, hs', ?_, hread⟩
    · simp only [writeTraceRow, hw, Option.bind_eq_bind, Option.bind_some]
      rw [addNextLimbs, h1]
      rfl
    · rw [if_pos hmode]
      exact ⟨c', rfl, t1⟩
  · rename_i hmode
    subst hc
    refine ⟨(cols', none), ?_, hs', ?_, hread⟩
    · simp only [writeTraceRow, hw, Option.bind_eq_bind, Option.bind_some]
      rfl
    · rw [if_neg hmode]

/-- **The rows from `i` on are written and counted**, and no other row. -/
theorem run_writeTraceRow : ∀ {rows : List Row} {i : ℕ} {st : Cols × Option LookupCounts}
    {events : RelationId → List ℕ},
    st.1.Shape (traceColumns rangeCheck) m → CountsAre st.2 rangeCheck events →
    (∀ row ∈ rows, ∃ s k a b, row = additionRow s k a b) → i + rows.length ≤ m →
      ∃ st', run (writeTraceRow rangeCheck) st (rows.zipIdx i) = some st' ∧
        st'.1.Shape (traceColumns rangeCheck) m ∧
        CountsAre st'.2 rangeCheck (fun r => events r ++ rows.flatMap (rowLookups r)) ∧
        (∀ p ∈ rows.zipIdx i, st'.1.row p.2 = fun c =>
          fromU32Unchecked ((rowCells rangeCheck p.1).getD c 0)) ∧
        ∀ r, r < i ∨ i + rows.length ≤ r → st'.1.row r = st.1.row r
  | [], i, st, events, h, hc, _, _ => ⟨st, rfl, h, by simpa using hc, by simp, fun _ _ => rfl⟩
  | row :: rows, i, st, events, h, hc, hrows, hle => by
      rw [List.forall_mem_cons] at hrows
      rw [List.length_cons] at hle
      obtain ⟨st1, h1, hs1, hc1, hr1⟩ := writeTraceRow_spec h hc (show i < m by omega) hrows.1
      obtain ⟨st2, h2, hs2, hc2, hr2, hk2⟩ := run_writeTraceRow hs1 hc1 hrows.2 (i := i + 1)
        (by omega)
      refine ⟨st2, ?_, hs2, by simpa [List.append_assoc] using hc2, ?_, fun r hr => ?_⟩
      · rw [List.zipIdx_cons, run_cons, h1]
        exact h2
      · rw [List.zipIdx_cons, List.forall_mem_cons]
        refine ⟨?_, hr2⟩
        rw [hk2 i (Or.inl i.lt_succ_self), hr1, if_pos rfl]
      · rw [List.length_cons] at hr
        rw [hk2 r (by omega), hr1, if_neg (by omega)]

/-- **What `generate_main_trace` returns**, for every number of rows that holds the trace. -/
theorem generateMainTrace_spec {cases : List TestCase} {K : ℕ} (h : cases.length * K ≤ m) :
    ∃ cols counts, generateMainTrace cases K m rangeCheck = some (cols, counts) ∧
      cols.Shape (traceColumns rangeCheck) m ∧
      CountsAre counts rangeCheck (fun r => (traceRows cases K).flatMap (rowLookups r)) ∧
      (∀ p ∈ (traceRows cases K).zipIdx, cols.row p.2 = fun c =>
        fromU32Unchecked ((rowCells rangeCheck p.1).getD c 0)) ∧
      ∀ r, cases.length * K ≤ r → cols.row r = fun _ => 0 := by
  set st : Cols × Option LookupCounts := (Cols.zeros (traceColumns rangeCheck) m,
    if rangeCheck = .lookup then some LookupCounts.new else none) with hst
  have hstart : CountsAre st.2 rangeCheck fun _ => [] := by
    show CountsAre (if rangeCheck = .lookup then some LookupCounts.new else none) _ _
    unfold CountsAre
    split
    · exact ⟨_, rfl, new_tallied⟩
    · rfl
  have hrows : ∀ row ∈ traceRows cases K, ∃ s k a b, row = additionRow s k a b :=
    fun row hm => mem_traceRows hm
  obtain ⟨⟨cols, counts⟩, hrun, hs, hc, hr, hk⟩ := run_writeTraceRow (i := 0)
    (zeros_shape (traceColumns rangeCheck) m) hstart hrows (by rw [length_traceRows]; omega)
  refine ⟨cols, counts, hrun, hs, by simpa using hc, hr, fun r hr => ?_⟩
  rw [hk r (by rw [length_traceRows]; omega)]
  exact funext fun c => row_zeros _ _ r c

end Trace

end GroverTax.NativeAir
