/-
  File:      GroverTax/NativeAir/Multiplicity.lean
  Subject:   The lookup multiplicities of benchmarks/stwo/iadd256/native-air/src/main.rs: the
             counters, their column and the public sums, under the argument guards of `main`.

  * `argumentGuards` -- what `main` refuses: the samples and the repetitions are bounded one by one;
  * `tableLookups`, `lookedUp` -- how often a value is looked up, read off the test cases;
  * `count_lookups` -- the lookups of the rows of a trace come to that number;
  * `countRows_eq` -- below `2 ^ 32` no counter overflows;
  * `Multiplicities` -- what the counters, their column and the public sum have to be;
  * `multiplicities_iff` -- **the counters are exact and canonical if and only if every value is
    looked up less often than the modulus.**
-/
import GroverTax.NativeAir.ClaimedSum

namespace GroverTax.NativeAir

open GroverTax.Lib

/-! ## 1. The source -/

inductive ArgumentError where
  /-- samples and repetitions must be non-zero -/
  | zero
  /-- samples and repetitions must fit in M31 without wrapping -/
  | wrapping
  /-- row count overflow -/
  | rowCount
  deriving DecidableEq, Repr

/-- The guards of `main` on its counts, and `target_rows`; `usize` has 64 bits. -/
def argumentGuards (samples repetitions : ℕ) : Except ArgumentError ℕ :=
  if samples = 0 ∨ repetitions = 0 then .error .zero
  else if samples ≥ M31_MODULUS_U32 ∨ repetitions ≥ M31_MODULUS_U32 then .error .wrapping
  else if samples * repetitions < 2 ^ 64 then .ok (samples * repetitions)
  else .error .rowCount

/-- `counts[i] += 1` in a build with overflow checks. -/
def incrementChecked (counts : List ℕ) (i : ℕ) : Option (List ℕ) :=
  if h : i < counts.length then
    if counts.get ⟨i, h⟩ + 1 < 2 ^ 32 then some (counts.set i (counts.get ⟨i, h⟩ + 1)) else none
  else none

/-- One round of `add_next_limbs` with overflow checks. -/
def addNextLimbChecked (counts : LookupCounts) (p : ℕ × ℕ) : Option LookupCounts := do
  let (lo, hi) := splitLookupChunks p.1
  let seq18 ← incrementChecked counts.seq18 lo
  if p.2 + 1 = LIMBS then
    let seq6 ← incrementChecked counts.seq6 hi
    return { counts with seq18, seq6 }
  else
    let seq11 ← incrementChecked counts.seq11 hi
    return { counts with seq18, seq11 }

/-- The counting of `generate_main_trace` with overflow checks. -/
def countRowsChecked (cases : List TestCase) (repetitions : ℕ) : Option LookupCounts :=
  run (fun counts row => run addNextLimbChecked counts row.next.zipIdx) LookupCounts.new
    (traceRows cases repetitions)

/-- `generate_lookup_multiplicity_trace`, less the evaluation domain. -/
def generateLookupMultiplicityTrace (counts : List ℕ) : List M31 :=
  counts.zipIdx.foldl (fun col p => col.set p.2 (fromU32Unchecked p.1))
    (List.replicate counts.length 0)

/-! ## 2. How often a value is looked up -/

/-- The chunks of a register that a table is asked for. -/
def tableLookups : RelationId → ℕ → List ℕ
  | .state, _ => []
  | .seq18, value => (List.range 9).map fun i => value / 2 ^ (29 * i) % 2 ^ 18
  | .seq11, value => (List.range 8).map fun i => value / 2 ^ (29 * i + 18) % 2 ^ 11
  | .seq6, value => [value / 2 ^ 250 % 2 ^ 6]

/-- How often `v` is looked up: the sum after every repetition of every case. -/
def lookedUp (cases : List TestCase) (repetitions : ℕ) (relation : RelationId) (v : ℕ) : ℕ :=
  (cases.map fun case => ((List.range repetitions).map fun j =>
    (tableLookups relation (case.r0In + (j + 1) * case.r1In)).count v).sum).sum

section Lookups

variable {cases : List TestCase} {K : ℕ} {r : RelationId}

theorem limbOffset_eq : ∀ i < LIMBS, limbOffset i = 29 * i := by decide

/-- The chunks of a limb, read off the register. -/
theorem splitLookupChunks_limb (value : ℕ) {i : ℕ} (hi : i < LIMBS) :
    splitLookupChunks (limb value i) =
      (value / 2 ^ (29 * i) % 2 ^ 18, value / 2 ^ (29 * i + 18) % 2 ^ lookupHighBits i) := by
  have hw : limbBits i = 18 + lookupHighBits i := by
    unfold lookupHighBits limbBits LOOKUP_CHUNK_BITS TOP_LIMB_BITS LIMB_BITS LIMBS
    split <;> rfl
  have hlimb : limb value i = value / 2 ^ (29 * i) % 2 ^ (18 + lookupHighBits i) := by
    rw [limb, digit, limbOffset_eq i hi, hw]
  unfold splitLookupChunks LOOKUP_CHUNK_BITS
  rw [hlimb, Nat.one_shiftLeft, Nat.and_two_pow_sub_one_eq_mod, Nat.shiftRight_eq_div_pow,
    Nat.mod_mod_of_dvd _ (Nat.pow_dvd_pow 2 (Nat.le_add_right 18 _)), Nat.pow_add 2 18,
    Nat.mod_mul_right_div_self, Nat.div_div_eq_div_mul, ← Nat.pow_add]

/-- The limbs of a register with their places. -/
theorem zipIdx_biguintToLimbs (value : ℕ) :
    (biguintToLimbs value).zipIdx = (List.range LIMBS).map fun i => (limb value i, i) := by
  rw [biguintToLimbs_eq_digit]
  rfl

/-- A limb below the top one is looked up in the tables of 18 and 11 bits. -/
theorem chunkLookups_low (value : ℕ) {i : ℕ} (hi : i < 8) (r : RelationId) :
    chunkLookups r (limb value i, i) =
      match r with
      | .seq18 => [value / 2 ^ (29 * i) % 2 ^ 18]
      | .seq11 => [value / 2 ^ (29 * i + 18) % 2 ^ 11]
      | _ => [] := by
  have htop : i + 1 ≠ LIMBS := by
    unfold LIMBS
    omega
  have hhigh : highRelation i = .seq11 := if_neg htop
  have hbits : lookupHighBits i = 11 := by rw [lookupHighBits_eq, hhigh]; rfl
  unfold chunkLookups
  rw [splitLookupChunks_limb value (by unfold LIMBS; omega), hhigh, hbits]
  cases r <;> rfl

/-- The top limb is looked up in the tables of 18 and 6 bits. -/
theorem chunkLookups_top (value : ℕ) (r : RelationId) :
    chunkLookups r (limb value 8, 8) =
      match r with
      | .seq18 => [value / 2 ^ (29 * 8) % 2 ^ 18]
      | .seq6 => [value / 2 ^ 250 % 2 ^ 6]
      | _ => [] := by
  unfold chunkLookups
  rw [splitLookupChunks_limb value (by decide), show highRelation 8 = .seq6 from rfl,
    show lookupHighBits 8 = 6 from rfl]
  cases r <;> rfl

/-- **What a row looks up**, read off its sum. -/
theorem rowLookups_additionRow (r : RelationId) (s k a b : ℕ) :
    rowLookups r (additionRow s k a b) = tableLookups r (a + b) := by
  have hlow : ∀ i ∈ List.range 8, chunkLookups r (limb (a + b) i, i) = _ := fun i hi =>
    chunkLookups_low (a + b) (List.mem_range.mp hi) r
  show (biguintToLimbs (a + b)).zipIdx.flatMap (chunkLookups r) = _
  rw [zipIdx_biguintToLimbs, List.flatMap_map, show LIMBS = 8 + 1 from rfl, List.range_succ,
    List.flatMap_append, List.flatMap_singleton, chunkLookups_top, List.flatMap_congr hlow]
  cases r with
  | state => simp [tableLookups]
  | seq18 =>
    show (List.range 8).flatMap (fun i => [(a + b) / 2 ^ (29 * i) % 2 ^ 18]) ++ _ = _
    rw [← List.map_eq_flatMap, tableLookups, List.range_succ, List.map_append]
    rfl
  | seq11 =>
    show (List.range 8).flatMap (fun i => [(a + b) / 2 ^ (29 * i + 18) % 2 ^ 11]) ++ [] = _
    rw [← List.map_eq_flatMap, List.append_nil]
    rfl
  | seq6 => simp [tableLookups]

/-- **The lookups of a trace**, value by value. -/
theorem count_lookups (cases : List TestCase) (K : ℕ) (r : RelationId) (v : ℕ) :
    ((traceRows cases K).flatMap (rowLookups r)).count v = lookedUp cases K r v := by
  have hrows : ∀ p : TestCase × ℕ, ((caseRows K p).flatMap (rowLookups r)).count v =
      ((List.range K).map fun j =>
        (tableLookups r (p.1.r0In + (j + 1) * p.1.r1In)).count v).sum := by
    intro p
    rw [List.count_flatMap, caseRows_eq, List.map_map]
    refine congrArg List.sum (List.map_congr_left fun j _ => ?_)
    show (rowLookups r (additionRow _ _ _ _)).count v = _
    rw [rowLookups_additionRow, Nat.add_assoc, ← Nat.succ_mul]
  rw [traceRows, List.flatMap_assoc, List.count_flatMap]
  have hcases : cases = cases.zipIdx.map Prod.fst := (List.zipIdx_map_fst 0 cases).symm
  rw [lookedUp]
  conv_rhs => rw [hcases]
  rw [List.map_map]
  exact congrArg List.sum (List.map_congr_left fun p _ => hrows p)

end Lookups

/-! ## 3. Counting without overflow -/

section Checked

variable {counts : List ℕ} {i : ℕ}

/-- A counter below the limit is incremented alike with and without the check. -/
theorem incrementChecked_eq {bits : ℕ} {events : List ℕ} (h : Tally bits counts events)
    (hi : i < 2 ^ bits) (hlt : (events ++ [i]).count i < 2 ^ 32) :
    incrementChecked counts i = increment counts i := by
  obtain ⟨hlen, hval⟩ := h
  have hi' : i < counts.length := hlen ▸ hi
  rw [List.count_append, List.count_singleton_self] at hlt
  have hget : counts.get ⟨i, hi'⟩ = events.count i := by
    have hasU32 : counts.get ⟨i, hi'⟩ = asU32 (events.count i) := by
      rw [← hval i hi, List.getD_eq_getElem _ _ hi']
      rfl
    rw [hasU32, asU32_of_lt (by omega)]
  rw [incrementChecked, increment, dif_pos hi', dif_pos hi', hget, if_pos hlt, asU32_of_lt hlt]

theorem addNextLimbChecked_eq_with (counts : LookupCounts) (p : ℕ × ℕ) :
    addNextLimbChecked counts p = addNextLimbWith incrementChecked counts p := by
  unfold addNextLimbChecked addNextLimbWith highRelation
  refine Option.bind_congr fun low _ => ?_
  split <;> exact Option.map_eq_bind.symm

/-- One limb. -/
theorem addNextLimbChecked_eq {counts : LookupCounts} {events : RelationId → List ℕ}
    (h : counts.Tallied events) {p : ℕ × ℕ} (hp : p.1 < limbBase p.2)
    (hlt : ∀ r v, (events r ++ chunkLookups r p).count v < 2 ^ 32) :
    addNextLimbChecked counts p = addNextLimb counts p := by
  obtain ⟨hlo, hhi⟩ := splitLookupChunks_lt hp
  rw [lookupHighBits_eq] at hhi
  obtain ⟨hstate, hne⟩ := highRelation_ne p.2
  have hbound := hlt (highRelation p.2) (splitLookupChunks p.1).2
  rw [chunkLookups, if_neg hne, if_pos rfl] at hbound
  have hlow : incrementChecked (counts.table .seq18) (splitLookupChunks p.1).1 =
      increment (counts.table .seq18) (splitLookupChunks p.1).1 :=
    incrementChecked_eq (h .seq18 (by decide)) hlo (hlt .seq18 _)
  rw [addNextLimbChecked_eq_with, addNextLimb_eq, addNextLimbWith, addNextLimbWith, hlow,
    incrementChecked_eq (h _ hstate) hhi hbound]

/-- Fewer events, fewer of each. -/
theorem count_lt_of_append {xs ys : List ℕ} {v n : ℕ} (h : (xs ++ ys).count v < n) :
    xs.count v < n := by
  rw [List.count_append] at h
  omega

/-- The limbs of a row. -/
theorem addNextLimbsChecked_spec : ∀ (next : List ℕ) (i : ℕ) {counts : LookupCounts}
    {events : RelationId → List ℕ}, counts.Tallied events →
    (∀ p ∈ next.zipIdx i, p.1 < limbBase p.2) →
    (∀ r v, (events r ++ (next.zipIdx i).flatMap (chunkLookups r)).count v < 2 ^ 32) →
      ∃ counts', run addNextLimbChecked counts (next.zipIdx i) = some counts' ∧
        counts'.Tallied fun r => events r ++ (next.zipIdx i).flatMap (chunkLookups r)
  | [], _, counts, events, h, _, _ => ⟨counts, rfl, by simpa using h⟩
  | limb :: next, i, counts, events, h, hbase, hlt => by
      rw [List.zipIdx_cons, List.forall_mem_cons] at hbase
      simp only [List.zipIdx_cons, List.flatMap_cons, ← List.append_assoc] at hlt ⊢
      obtain ⟨counts1, h1, t1⟩ := addNextLimb_spec h hbase.1
      obtain ⟨counts2, h2, t2⟩ := addNextLimbsChecked_spec next (i + 1) t1 hbase.2 hlt
      refine ⟨counts2, ?_, t2⟩
      rw [run_cons, addNextLimbChecked_eq h hbase.1 fun r v => count_lt_of_append (hlt r v), h1]
      exact h2

/-- **The rows of a trace**: nothing overflows while every value is below `2 ^ 32` in the end. -/
theorem run_checked_spec : ∀ {rows : List Row} {counts : LookupCounts}
    {events : RelationId → List ℕ}, counts.Tallied events →
    (∀ row ∈ rows, ∃ s k a b, row = additionRow s k a b) →
    (∀ r v, (events r ++ rows.flatMap (rowLookups r)).count v < 2 ^ 32) →
      ∃ counts', run (fun counts row => run addNextLimbChecked counts row.next.zipIdx) counts rows =
          some counts' ∧ counts'.Tallied fun r => events r ++ rows.flatMap (rowLookups r)
  | [], counts, events, h, _, _ => ⟨counts, rfl, by simpa using h⟩
  | row :: rows, counts, events, h, hrows, hlt => by
      rw [List.forall_mem_cons] at hrows
      simp only [List.flatMap_cons, ← List.append_assoc] at hlt ⊢
      have hbase : ∀ p ∈ row.next.zipIdx, p.1 < limbBase p.2 := by
        obtain ⟨s, k, a, b, rfl⟩ := hrows.1
        exact fun p hp => mem_zipIdx_limbs hp
      obtain ⟨counts1, h1, t1⟩ := addNextLimbsChecked_spec row.next 0 h hbase
        fun r v => count_lt_of_append (hlt r v)
      obtain ⟨counts2, h2, t2⟩ := run_checked_spec t1 hrows.2 hlt
      refine ⟨counts2, ?_, t2⟩
      rw [run_cons, h1]
      exact h2

/-- A tally is determined by what it has counted. -/
theorem tally_unique {bits : ℕ} {counts counts' events : List ℕ} (h : Tally bits counts events)
    (h' : Tally bits counts' events) : counts = counts' := by
  refine ext_getD 0 (h.1.trans h'.1.symm) fun v hv => ?_
  rw [h.1] at hv
  rw [h.2 v hv, h'.2 v hv]

theorem tallied_unique {counts counts' : LookupCounts} {events : RelationId → List ℕ}
    (h : counts.Tallied events) (h' : counts'.Tallied events) : counts = counts' := by
  have h18 : counts.seq18 = counts'.seq18 :=
    tally_unique (h .seq18 (by decide)) (h' .seq18 (by decide))
  have h11 : counts.seq11 = counts'.seq11 :=
    tally_unique (h .seq11 (by decide)) (h' .seq11 (by decide))
  have h6 : counts.seq6 = counts'.seq6 :=
    tally_unique (h .seq6 (by decide)) (h' .seq6 (by decide))
  cases counts
  cases counts'
  simp only at h18 h11 h6
  rw [h18, h11, h6]

end Checked

/-! ## 4. Multiplicities -/

section Multiplicities

variable {cases : List TestCase} {K n : ℕ} {counts : LookupCounts}

/-- The counters of a trace and what becomes of them: none overflows on the way, each is the number
    of its value's lookups and below the modulus, its element is canonical in the column, and the
    public sum is the sum over the lookups. -/
structure Multiplicities (cases : List TestCase) (K n : ℕ) (counts : LookupCounts) : Prop where
  generated : ∃ cols,
    generateMainTrace cases K (paddedRows n) .lookup = some (cols, some counts)
  checked : countRowsChecked cases K = some counts
  exact : ∀ r, r ≠ .state → ∀ v < 2 ^ tableBits r,
    (counts.table r).getD v 0 = ((traceRows cases K).flatMap (rowLookups r)).count v
  canonical : ∀ r, ∀ count ∈ counts.table r, count < M31_MODULUS_U32
  column : ∀ r, (generateLookupMultiplicityTrace (counts.table r)).map ZMod.val = counts.table r
  publicSum : ∀ (F : Type) [Field F] [Algebra M31 F] (combine : RelationId → List M31 → F),
    lookupPublicSum combine counts =
      eventSums combine fun r => (traceRows cases K).flatMap (rowLookups r)

/-- The rows behind `pre` are written, one after the other. -/
theorem foldl_set : ∀ (counts : List ℕ) (pre : List M31),
    (counts.zipIdx pre.length).foldl (fun col p => col.set p.2 (fromU32Unchecked p.1))
        (pre ++ List.replicate counts.length 0) =
      pre ++ counts.map fromU32Unchecked
  | [], pre => by simp
  | c :: counts, pre => by
      have ih := foldl_set counts (pre ++ [fromU32Unchecked c])
      rw [List.length_append, List.length_singleton, List.append_assoc, List.append_assoc] at ih
      rw [List.zipIdx_cons, List.foldl_cons, List.length_cons, List.replicate_succ,
        List.set_append_right _ _ (Nat.le_refl _), Nat.sub_self, List.set_cons_zero]
      exact ih

theorem generateLookupMultiplicityTrace_eq (counts : List ℕ) :
    generateLookupMultiplicityTrace counts = counts.map fromU32Unchecked := foldl_set counts []

/-- Below the modulus the element is the counter. -/
theorem val_column {counts : List ℕ} (h : ∀ count ∈ counts, count < M31_MODULUS_U32) :
    (generateLookupMultiplicityTrace counts).map ZMod.val = counts := by
  rw [generateLookupMultiplicityTrace_eq, List.map_map]
  refine (List.map_congr_left fun count hm => ?_).trans (List.map_id counts)
  exact ZMod.val_natCast_of_lt (h count hm)

theorem argumentGuards_eq_ok {samples : ℕ} (h : argumentGuards samples K = .ok n) :
    n = samples * K := by
  unfold argumentGuards at h
  repeat' split at h
  all_goals cases h
  rfl

/-- The state relation has no table. -/
theorem lookedUp_state (v : ℕ) : lookedUp cases K .state v = 0 := by simp [lookedUp, tableLookups]

/-- A value outside its table is never looked up. -/
theorem lookedUp_of_le {r : RelationId} {v : ℕ} (h : 2 ^ tableBits r ≤ v) :
    lookedUp cases K r v = 0 := by
  rw [← count_lookups]
  exact List.count_eq_zero_of_not_mem fun hv =>
    absurd ((traceRows_lookups r cases K).1 v hv) (Nat.not_lt_of_le h)

/-- A row looks a value up nine times at most. -/
theorem lookedUp_le (r : RelationId) (v : ℕ) : lookedUp cases K r v ≤ 9 * (cases.length * K) := by
  rw [← count_lookups]
  exact List.count_le_length.trans (traceRows_lookups r cases K).2

/-- **Counting does not overflow** while no value is looked up `2 ^ 32` times. -/
theorem countRows_eq (h : ∀ r v, lookedUp cases K r v < 2 ^ 32) :
    ∃ counts, countRowsChecked cases K = some counts ∧
      counts.Tallied fun r => (traceRows cases K).flatMap (rowLookups r) := by
  obtain ⟨counts, hrun, ht⟩ := run_checked_spec new_tallied (fun row hm => mem_traceRows hm)
    fun r v => by
      rw [List.nil_append, count_lookups]
      exact h r v
  exact ⟨counts, hrun, by simpa using ht⟩

/-- **Where no value is looked up too often**, the counters are what they have to be. -/
theorem multiplicities_of_lt (hn : n = cases.length * K)
    (h : ∀ r, r ≠ .state → ∀ v, lookedUp cases K r v < M31_MODULUS_U32) :
    ∃ counts, Multiplicities cases K n counts := by
  have hM : M31_MODULUS_U32 < 2 ^ 32 := by decide
  have hlt : ∀ r v, lookedUp cases K r v < 2 ^ 32 := by
    intro r v
    by_cases hr : r = .state
    · rw [hr, lookedUp_state]
      exact Nat.two_pow_pos _
    · exact (h r hr v).trans hM
  obtain ⟨counts, hchecked, ht⟩ := countRows_eq hlt
  obtain ⟨cols, counts', hgen, _, hcounts, _⟩ :=
    @generateMainTrace_spec .lookup _ _ _ (le_paddedRows (cases.length * K))
  obtain ⟨counts', rfl, ht'⟩ := hcounts
  obtain rfl := tallied_unique ht' ht
  have hexact : ∀ r, r ≠ .state → ∀ v < 2 ^ tableBits r,
      (counts'.table r).getD v 0 = ((traceRows cases K).flatMap (rowLookups r)).count v := by
    intro r hr v hv
    rw [(ht r hr).2 v hv, count_lookups, asU32_of_lt (hlt r v)]
  have hcanonical : ∀ r, ∀ count ∈ counts'.table r, count < M31_MODULUS_U32 := by
    intro r count hm
    by_cases hr : r = .state
    · subst hr
      exact absurd hm List.not_mem_nil
    · obtain ⟨v, hv, rfl⟩ := List.mem_iff_getElem.mp hm
      rw [← List.getD_eq_getElem _ 0 hv, hexact r hr v ((ht r hr).1 ▸ hv), count_lookups]
      exact h r hr v
  refine ⟨counts', ⟨cols, hn ▸ hgen⟩, hchecked, hexact, hcanonical,
    fun r => val_column (hcanonical r), fun F _ _ combine => ?_⟩
  exact lookupPublicSum_eq_eventSums ht (fun r => (traceRows_lookups r cases K).1) fun r v => by
    rw [count_lookups]
    exact hlt r v

/-- **No value is looked up too often** where the counters are what they have to be. -/
theorem Multiplicities.lookedUp_lt (h : Multiplicities cases K n counts) {r : RelationId}
    (hr : r ≠ .state) (v : ℕ) : lookedUp cases K r v < M31_MODULUS_U32 := by
  have hpos : 0 < M31_MODULUS_U32 := by decide
  rcases Nat.lt_or_ge v (2 ^ tableBits r) with hv | hv
  · rw [← count_lookups, ← h.exact r hr v hv]
    by_cases hm : v < (counts.table r).length
    · rw [List.getD_eq_getElem _ _ hm]
      exact h.canonical r _ (List.getElem_mem hm)
    · rw [List.getD_eq_default _ _ (Nat.le_of_not_lt hm)]
      exact hpos
  · rw [lookedUp_of_le hv]
    exact hpos

/-- **Multiplicities**: on every case list whose numbers of samples and repetitions the guards admit,
    no counter overflows, and each is exact and canonical, if and only if no table is asked for a
    value as often as the modulus. -/
theorem multiplicities_iff (hargs : argumentGuards cases.length K = .ok n) :
    (∃ counts, Multiplicities cases K n counts) ↔
      ∀ r, r ≠ .state → ∀ v, lookedUp cases K r v < M31_MODULUS_U32 := by
  refine ⟨fun h r hr v => ?_, multiplicities_of_lt (argumentGuards_eq_ok hargs)⟩
  obtain ⟨counts, h⟩ := h
  exact h.lookedUp_lt hr v

theorem multiplicities_iff_sample : ∃ counts, Multiplicities [sampleCase] 2 2 counts :=
  (multiplicities_iff (K := 2) (n := 2) rfl).mpr fun r _ v =>
    (lookedUp_le r v).trans_lt (by decide)

/-- An honest case whose sums are all zero. -/
def zeroCase : TestCase where
  r0In := 0
  r1In := 0
  yHex := String.ofList (List.replicate 128 '0')

theorem hexDecode_zeros : ∀ n, hexDecode (List.replicate (2 * n) '0') = some (List.replicate n 0)
  | 0 => rfl
  | n + 1 => by
      have hdigit : hexDigit '0' = some 0 := rfl
      rw [Nat.mul_succ, List.replicate_succ, List.replicate_succ, hexDecode, hdigit,
        hexDecode_zeros n, List.replicate_succ]
      rfl

theorem zeroCase_honest (K : ℕ) : Honest K zeroCase := by
  show lowRegisterFromStateHex (String.ofList (List.replicate 128 '0')) =
    some ((0 + K * 0) % 2 ^ 256)
  rw [lowRegisterFromStateHex, String.toList_ofList, hexDecode_zeros 64, Nat.mul_zero]
  rfl

/-- Every row of it looks up zero nine times. -/
theorem lookedUp_zeroCase (K : ℕ) : lookedUp [zeroCase] K .seq18 0 = K * 9 := by
  have hrow : ∀ j ∈ List.range K,
      (tableLookups .seq18 (zeroCase.r0In + (j + 1) * zeroCase.r1In)).count 0 = 9 := by
    intro j _
    show (tableLookups .seq18 (0 + (j + 1) * 0)).count 0 = 9
    rw [Nat.mul_zero]
    decide
  rw [lookedUp, List.map_singleton, List.sum_singleton, List.map_congr_left hrow, List.map_const',
    List.sum_replicate, List.length_range, smul_eq_mul]

/-- **Too many repetitions**: the guards and the check of the outputs pass, and the counter of zero
    is not below the modulus. -/
theorem zeroCase_not_canonical :
    argumentGuards [zeroCase].length 238609295 = .ok 238609295 ∧
      checkFixtureOutputs [zeroCase] 238609295 = .ok () ∧
      lookedUp [zeroCase] 238609295 .seq18 0 = 2147483655 ∧
      ¬∃ counts, Multiplicities [zeroCase] 238609295 238609295 counts := by
  have hcount : lookedUp [zeroCase] 238609295 .seq18 0 = 2147483655 := lookedUp_zeroCase _
  refine ⟨rfl, checkFixtureOutputs_eq_ok.mpr fun c hc => ?_, hcount, fun h => ?_⟩
  · rw [List.mem_singleton.mp hc]
    exact zeroCase_honest _
  · obtain ⟨counts, h⟩ := h
    have hlt := h.lookedUp_lt (show RelationId.seq18 ≠ .state by decide) 0
    rw [hcount] at hlt
    exact absurd hlt (by decide)

end Multiplicities

end GroverTax.NativeAir
