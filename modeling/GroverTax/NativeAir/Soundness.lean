/-
  File:      GroverTax/NativeAir/Soundness.lean
  Subject:   An accepted proof of the native iadd256 program proves the sums: whatever the cells
             of the trace hold, every claimed final register is `r0 + K * r1` modulo `2 ^ 256`.

  * `bits_range`, `lookup_range` -- in either range-check mode the `next` limbs of an active row
    are below their bases (in lookup mode only these are checked);
  * `row_step` -- an active row whose inputs are canonical limbs adds: the place equations hold
    over the natural numbers, because no side of them reaches the field's modulus;
  * `state_balance` -- the state relation is an edge balance in the sense of
    `GroverTax.Lib.balance_closed`, the active rows being the edges;
  * `active_level_lt` -- the repetition index of an active row is below `K`: with fewer rows than the
    field has elements, no chain of rows winds around the index;
  * `final_registers` -- the honest states are closed under the active rows, so they hold the final
    ones; `iadd_sound` is this within the program's bounds.
-/
import GroverTax.Lib.Balance
import GroverTax.NativeAir.Honest
import Mathlib.NumberTheory.LucasLehmer

namespace GroverTax.NativeAir

open GroverTax.Lib EvalAtRow

theorem m31_prime : Nat.Prime 2147483647 := by
  have h : (mersenne 31).Prime := lucas_lehmer_sufficiency _ (by simp) (by norm_num)
  simpa [mersenne] using h

instance fact_m31_prime : Fact (Nat.Prime 2147483647) := ⟨m31_prime⟩

/-! ## 1. Ranges -/

/-- A cell `x` with `x * (x - 1) = 0` holds a bit. -/
theorem bit_of_constraint {x : M31} (h : 1 * x * (x - 1) = 0) : x = 0 ∨ x = 1 := by
  rw [one_mul] at h
  exact (mul_eq_zero.mp h).imp id sub_eq_zero.mp

theorem val_natCast_of_lt {m : ℕ} (h : m < 2147483647) : ((m : ℕ) : M31).val = m :=
  ZMod.val_cast_of_lt h

/-- The reconstructed sum of `n` bits is a number below `2 ^ n`. -/
theorem bitSum_range {row : ℕ → M31} {col : ℕ} : ∀ n,
    (∀ j < n, row (col + j) = 0 ∨ row (col + j) = 1) →
      ∃ m : ℕ, m < 2 ^ n ∧ bitSum row col n = (m : M31)
  | 0, _ => ⟨0, by decide, by simp [bitSum]⟩
  | n + 1, h => by
      obtain ⟨m, hm, e⟩ := bitSum_range n fun j hj => h j (Nat.lt_succ_of_lt hj)
      have es : bitSum row col (n + 1) = bitSum row col n + row (col + n) * (2 ^ n : ℕ) := by
        simp only [bitSum, Finset.sum_range_succ, fromU32Unchecked, Nat.one_shiftLeft]
      rcases h n (Nat.lt_succ_self n) with hb | hb
      · exact ⟨m, by rw [pow_succ]; omega, by rw [es, e, hb, zero_mul, add_zero]⟩
      · exact ⟨m + 2 ^ n, by rw [pow_succ]; omega, by rw [es, e, hb, one_mul]; push_cast; rfl⟩

theorem val_lt_of_natCast {x : M31} {m n : ℕ} (hn : n ≤ 29) (hm : m < 2 ^ n) (e : x = (m : M31)) :
    x.val < 2 ^ n := by
  have : (2 : ℕ) ^ n ≤ 2 ^ 29 := Nat.pow_le_pow_right (by decide) hn
  rw [e, val_natCast_of_lt (by omega)]
  exact hm

/-- Bit-decomposed limbs are below their bases. -/
theorem bits_range {row : ℕ → M31} : ∀ (limbs : List M31) (limbIdx col : ℕ),
    (∀ c ∈ limbBitConstraints row 1 limbIdx col limbs, c = 0) →
      ∀ i < limbs.length, (limbs.getD i 0).val < 2 ^ limbBits (limbIdx + i)
  | [], _, _, _, _, hi => absurd hi (Nat.not_lt_zero _)
  | limb :: limbs, limbIdx, col, h, i, hi => by
      simp only [limbBitConstraints, List.forall_mem_append, List.forall_mem_cons,
        List.forall_mem_map, List.mem_range] at h
      obtain ⟨hbits, hsum, hrest⟩ := h
      cases i with
      | zero =>
        obtain ⟨m, hm, e⟩ := bitSum_range _ fun j hj => bit_of_constraint (hbits j hj)
        rw [one_mul, sub_eq_zero] at hsum
        exact val_lt_of_natCast (limbBits_le _) hm (hsum.trans e)
      | succ i =>
        have := bits_range limbs (limbIdx + 1) _ hrest i (Nat.lt_of_succ_lt_succ hi)
        rwa [Nat.add_assoc, Nat.add_comm 1 i] at this

/-- Looked-up limbs are below their bases, once every chunk is in its table. -/
theorem lookup_range {row : ℕ → M31} : ∀ (limbs : List M31) (limbIdx col : ℕ),
    (∀ c ∈ lookupConstraints row 1 col limbs, c = 0) →
    (∀ i < limbs.length, (row (col + 2 * i)).val < 2 ^ LOOKUP_CHUNK_BITS ∧
      (row (col + 2 * i + 1)).val < 2 ^ lookupHighBits (limbIdx + i)) →
      ∀ i < limbs.length, (limbs.getD i 0).val < 2 ^ limbBits (limbIdx + i)
  | [], _, _, _, _, _, hi => absurd hi (Nat.not_lt_zero _)
  | limb :: limbs, limbIdx, col, h, hr, i, hi => by
      simp only [lookupConstraints, List.forall_mem_cons] at h
      obtain ⟨hlimb, hrest⟩ := h
      cases i with
      | zero =>
        obtain ⟨hlo, hhi⟩ := hr 0 hi
        have hge : 18 ≤ limbBits limbIdx := by
          unfold limbBits
          split <;> decide
        have hbits : 2 ^ lookupHighBits limbIdx * 2 ^ 18 = 2 ^ limbBits limbIdx := by
          rw [← pow_add]
          congr 1
          show limbBits limbIdx - 18 + 18 = _
          omega
        have e : limb = (((row col).val + (row (col + 1)).val * 2 ^ 18 : ℕ) : M31) := by
          have hw : fromU32Unchecked (1 <<< LOOKUP_CHUNK_BITS) = ((2 ^ 18 : ℕ) : M31) := by
            rw [fromU32Unchecked, Nat.one_shiftLeft]
            rfl
          rw [Nat.cast_add, Nat.cast_mul, ZMod.natCast_zmod_val, ZMod.natCast_zmod_val, ← hw]
          rwa [one_mul, sub_sub, sub_eq_zero] at hlimb
        refine val_lt_of_natCast (limbBits_le _) ?_ e
        show _ < 2 ^ limbBits limbIdx
        rw [← hbits]
        have h1 : (row col).val < 2 ^ 18 := hlo
        have h2 : (row (col + 1)).val + 1 ≤ 2 ^ lookupHighBits limbIdx := hhi
        calc (row col).val + (row (col + 1)).val * 2 ^ 18
            < ((row (col + 1)).val + 1) * 2 ^ 18 := by omega
          _ ≤ 2 ^ lookupHighBits limbIdx * 2 ^ 18 := Nat.mul_le_mul_right _ h2
      | succ i =>
        have := lookup_range limbs (limbIdx + 1) (col + 2) hrest
          (fun j hj => by
            have := hr (j + 1) (Nat.succ_lt_succ hj)
            rwa [show col + 2 * (j + 1) = col + 2 + 2 * j by ring,
              show limbIdx + (j + 1) = limbIdx + 1 + j by ring] at this)
          i (Nat.lt_of_succ_lt_succ hi)
        rwa [Nat.add_assoc, Nat.add_comm 1 i] at this

/-! ## 2. One active row -/

/-- The carry an active row's cells report into limb `i`. -/
def rowCarryIn (row : ℕ → M31) (i : ℕ) : ℕ :=
  if i = 0 then 0 else ((rowCarry row).getD (i - 1) 0).val

/-- The place equations and bit carries that `compactConstraints` puts on an active row. -/
theorem compact_active {row : ℕ → M31} (hreal : rowIsReal row = 1)
    (h : ∀ c ∈ compactConstraints row, c = 0) :
    (∀ i < LIMBS, (rowCarry row).getD i 0 = 0 ∨ (rowCarry row).getD i 0 = 1) ∧
      ∀ i < LIMBS, limbRelation row i = 0 := by
  simp only [compactConstraints, List.cons_append, List.forall_mem_cons, List.forall_mem_append,
    List.forall_mem_map, List.mem_range, hreal] at h
  exact ⟨fun i hi => bit_of_constraint (h.2.1 i hi), fun i hi => by simpa using h.2.2 i hi⟩

/-- A place equation over the field holds over the natural numbers: neither side reaches the
    modulus. -/
theorem place_nat {row : ℕ → M31} {a b i : ℕ} (hi : i < LIMBS)
    (hcarry : ∀ i < LIMBS, (rowCarry row).getD i 0 = 0 ∨ (rowCarry row).getD i 0 = 1)
    (hplace : limbRelation row i = 0)
    (hnext : ((rowNext row).getD i 0).val < 2 ^ limbBits i)
    (hacc : rowAcc row = limbsM31 a) (hadd : rowAddend row = limbsM31 b) :
    limb a i + limb b i + rowCarryIn row i =
      ((rowNext row).getD i 0).val + ((rowCarry row).getD i 0).val * 2 ^ limbBits i := by
  have bit_le : ∀ j < LIMBS, ((rowCarry row).getD j 0).val ≤ 1 := by
    intro j hj
    rcases hcarry j hj with e | e <;> rw [e]
    · exact Nat.zero_le _
    · exact Nat.le_refl _
  have hcin : rowCarryIn row i ≤ 1 := by
    unfold rowCarryIn
    split
    · exact Nat.zero_le _
    · exact bit_le _ (by omega)
  have hout := bit_le i hi
  have ha := limb_lt a i
  have hb := limb_lt b i
  have hw : 2 ^ limbBits i ≤ 2 ^ 29 := Nat.pow_le_pow_right (by decide) (limbBits_le i)
  have hco : ((rowCarry row).getD i 0).val * 2 ^ limbBits i ≤ 2 ^ 29 :=
    (Nat.mul_le_mul hout hw).trans (by omega)
  have hcast : (if i = 0 then (0 : M31) else (rowCarry row).getD (i - 1) 0) =
      (rowCarryIn row i : M31) := by
    unfold rowCarryIn
    split
    · simp
    · rw [ZMod.natCast_zmod_val]
  have e : ((limb a i + limb b i + rowCarryIn row i : ℕ) : M31) =
      ((((rowNext row).getD i 0).val + ((rowCarry row).getD i 0).val * 2 ^ limbBits i : ℕ) :
        M31) := by
    have hl := hplace
    unfold limbRelation at hl
    rw [hacc, hadd, getD_limbsM31 a hi, getD_limbsM31 b hi, hcast, sub_sub, sub_eq_zero,
      fromU32Unchecked, limbBase_eq] at hl
    rw [Nat.cast_add, Nat.cast_add, Nat.cast_add, Nat.cast_mul, ZMod.natCast_zmod_val,
      ZMod.natCast_zmod_val]
    exact hl
  have := congrArg ZMod.val e
  rwa [val_natCast_of_lt (by omega), val_natCast_of_lt (by omega)] at this

/-- The carries of an active row are the carries of the addition. -/
theorem rowCarryIn_eq {row : ℕ → M31} {a b : ℕ}
    (hcarry : ∀ i < LIMBS, (rowCarry row).getD i 0 = 0 ∨ (rowCarry row).getD i 0 = 1)
    (hplace : ∀ i < LIMBS, limbRelation row i = 0)
    (hnext : ∀ i < LIMBS, ((rowNext row).getD i 0).val < 2 ^ limbBits i)
    (hacc : rowAcc row = limbsM31 a) (hadd : rowAddend row = limbsM31 b) :
    ∀ i < LIMBS, rowCarryIn row i = carryInto limbOffset a b i
  | 0, _ => (carryInto_zero rfl a b).symm
  | i + 1, hi => by
      have hi' : i < LIMBS := by omega
      have e := place_nat hi' hcarry (hplace i hi') (hnext i hi') hacc hadd
      rw [rowCarryIn_eq hcarry hplace hnext hacc hadd i hi'] at e
      exact (digit_of_carry_eq limbOffset_succ (hnext i hi') e).2

/-- **An active row on canonical limbs adds.** -/
theorem row_step {row : ℕ → M31} {a b : ℕ} (hreal : rowIsReal row = 1)
    (hcompact : ∀ c ∈ compactConstraints row, c = 0)
    (hnext : ∀ i < LIMBS, ((rowNext row).getD i 0).val < 2 ^ limbBits i)
    (hacc : rowAcc row = limbsM31 a) (hadd : rowAddend row = limbsM31 b) :
    rowNext row = limbsM31 (a + b) := by
  obtain ⟨hcarry, hplace⟩ := compact_active hreal hcompact
  refine List.ext_getElem (by simp [rowNext]) fun i h1 h2 => ?_
  have hi : i < LIMBS := by simpa using h2
  have e := place_nat hi hcarry (hplace i hi) (hnext i hi) hacc hadd
  rw [rowCarryIn_eq hcarry hplace hnext hacc hadd i hi] at e
  have hd := (digit_of_carry_eq limbOffset_succ (hnext i hi) e).1
  rw [← List.getD_eq_getElem _ 0 h1, ← List.getD_eq_getElem _ 0 h2, getD_limbsM31 _ hi,
    ← ZMod.natCast_zmod_val ((rowNext row).getD i 0), hd]

/-! ## 3. Lookups -/

/-- A negated entry of a lookup relation names a value of that relation's table. -/
theorem table_entry {t : Trace} {y : RelationEntry} (hy : y ∈ t.entries .lookup)
    (hrel : y.relation ≠ .state) (hneg : y.negated = true) :
    ∃ v < 2 ^ tableBits y.relation, y.values = [fromU32Unchecked v] := by
  have hseq : ∀ (r : RelationId) (mult : ℕ → M31), y ∈ seqLookupEntries r (tableBits r) mult →
      ∃ v < 2 ^ tableBits y.relation, y.values = [fromU32Unchecked v] := by
    intro r mult h
    obtain ⟨v, hv, rfl⟩ := List.mem_map.mp h
    exact ⟨v, List.mem_range.mp hv, rfl⟩
  simp only [Trace.entries, if_true, List.mem_append, List.mem_flatMap] at hy
  rcases hy with ⟨row, _, h⟩ | (h | h) | h
  · rw [evaluate_entries] at h
    simp only [List.mem_cons, if_true] at h
    rcases h with rfl | rfl | h
    · cases hneg
    · exact absurd rfl hrel
    · rw [(lookupEntries_spec y h).2] at hneg
      cases hneg
  · exact hseq .seq18 _ h
  · exact hseq .seq11 _ h
  · exact hseq .seq6 _ h

/-- A chunk an active row looks up is below the size of its table. -/
theorem chunk_range {t : Trace} {row : ℕ → M31} {r : RelationId} {v : M31}
    (hb : Balances r (t.entries .lookup) 0 0) (hr : r ≠ .state) (hrow : row ∈ t.rows)
    (hx : ⟨r, false, 1, [v]⟩ ∈ lookupEntries row 1 0 39 (rowNext row))
    (hreal : rowIsReal row = 1) : v.val < 2 ^ tableBits r := by
  have hmem : (⟨r, false, 1, [v]⟩ : RelationEntry) ∈ t.entries .lookup := by
    refine List.mem_append_left _ (List.mem_flatMap.mpr ⟨row, hrow, ?_⟩)
    rw [evaluate_entries, hreal]
    exact List.mem_cons_of_mem _ (List.mem_cons_of_mem _ hx)
  obtain ⟨y, hy, hyr, hyn, hyv⟩ := lookup_answered hb hmem rfl rfl
    (show (1 : M31).val ≠ 0 by decide)
  obtain ⟨w, hw, e⟩ := table_entry hy (hyr ▸ hr) hyn
  rw [hyr] at hw
  rw [hyv] at e
  obtain rfl : v = fromU32Unchecked w := by simpa using e
  have hbits : tableBits r ≤ 29 := by cases r <;> decide
  exact val_lt_of_natCast hbits hw rfl

/-- **The `next` limbs of an active row are below their bases**, in either checking mode. -/
theorem next_range {rangeCheck : RangeCheckMode} {cases : List TestCase} {repetitions : ℕ}
    {t : Trace} (hmode : rangeCheck ≠ .off) (h : Accepted rangeCheck cases repetitions t)
    {row : ℕ → M31} (hrow : row ∈ t.rows) (hreal : rowIsReal row = 1) :
    ∀ i < LIMBS, ((rowNext row).getD i 0).val < 2 ^ limbBits i := by
  have hc := h.constraints row hrow
  have hlen : (rowNext row).length = LIMBS := length_cells _ _ _
  rw [evaluate_constraints] at hc
  cases rangeCheck with
  | off => exact absurd rfl hmode
  | bits =>
    simp only [List.forall_mem_append, hreal] at hc
    have := bits_range _ _ _ hc.2.2
    rw [hlen] at this
    exact fun i hi => by simpa using this i hi
  | lookup =>
    simp only [List.forall_mem_append, hreal] at hc
    have := lookup_range _ 0 _ hc.2 fun i hi => by
      obtain ⟨h1, h2⟩ := mem_lookupEntries row 1 (rowNext row) 0 39 i hi
      refine ⟨chunk_range h.seq18 (by decide) hrow h1 hreal, ?_⟩
      rw [lookupHighBits_eq]
      refine chunk_range ?_ ?_ hrow h2 hreal <;> unfold highRelation <;> split
      · exact h.seq6
      · exact h.seq11
      · decide
      · decide
    rw [hlen] at this
    exact fun i hi => by simpa using this i hi

/-! ## 4. The state relation -/

/-- The active rows of a trace. -/
def Trace.active (t : Trace) : List (ℕ → M31) := t.rows.filter fun row => rowIsReal row = 1

/-- **The active rows balance against the public boundary.** -/
theorem state_balance {rangeCheck : RangeCheckMode} {t : Trace} {added subtracted : Multiset (List M31)}
    (hc : t.ConstraintsHold rangeCheck)
    (hb : Balances .state (t.entries rangeCheck) added subtracted) :
    (t.active : Multiset (ℕ → M31)).map rowInput + subtracted =
      (t.active : Multiset (ℕ → M31)).map rowOutput + added := by
  have hbit : ∀ row ∈ t.rows, rowIsReal row = 0 ∨ rowIsReal row = 1 := by
    intro row hrow
    have h := hc row hrow (rowIsReal row * (rowIsReal row - 1)) (by
      rw [evaluate_constraints]
      exact List.mem_append_left _ List.mem_cons_self)
    exact (mul_eq_zero.mp h).imp id sub_eq_zero.mp
  have hseq : ∀ neg, tuples .state neg (if rangeCheck = .lookup then
      seqLookupEntries .seq18 LOOKUP_CHUNK_BITS t.mult18 ++
        seqLookupEntries .seq11 (LIMB_BITS - LOOKUP_CHUNK_BITS) t.mult11 ++
        seqLookupEntries .seq6 (TOP_LIMB_BITS - LOOKUP_CHUNK_BITS) t.mult6
      else []) = 0 := by
    refine fun neg => tuples_eq_zero fun x hx hr => ?_
    split at hx
    · simp only [List.mem_append, seqLookupEntries, List.mem_map] at hx
      rcases hx with (⟨_, _, rfl⟩ | ⟨_, _, rfl⟩) | ⟨_, _, rfl⟩ <;> cases hr.1
    · exact List.not_mem_nil hx
  unfold Balances Trace.entries at hb
  rw [tuples_append, tuples_append, hseq, hseq, state_tuples _ _ _ hbit, state_tuples _ _ _ hbit] at hb
  simpa [Trace.active] using hb

/-! ## 5. Soundness -/

/-- Two state tuples agree in their indices and their registers. -/
theorem stateFromLimbs_inj {s s' : M31} {k k' : M31} {acc addend : List M31} {a b : ℕ}
    (hacc : acc.length = LIMBS)
    (h : s :: k :: (acc ++ addend) = s' :: k' :: (limbsM31 a ++ limbsM31 b)) :
    s = s' ∧ k = k' ∧ acc = limbsM31 a ∧ addend = limbsM31 b := by
  obtain ⟨h1, h2⟩ := List.cons.inj h
  obtain ⟨h2, h3⟩ := List.cons.inj h2
  obtain ⟨h3, h4⟩ := List.append_inj h3 (by simp [hacc])
  exact ⟨h1, h2, h3, h4⟩

/-- **An active row leads from an honest state to the next one.** -/
theorem honest_step {row : ℕ → M31} {case : TestCase} {i k : ℕ} (hreal : rowIsReal row = 1)
    (hcompact : ∀ c ∈ compactConstraints row, c = 0)
    (hnext : ∀ i < LIMBS, ((rowNext row).getD i 0).val < 2 ^ limbBits i)
    (hin : rowInput row = honestState case i k) : rowOutput row = honestState case i (k + 1) := by
  rw [honestState, stateFromLimbs_eq] at hin
  obtain ⟨hs, hk, hacc, hadd⟩ := stateFromLimbs_inj (length_cells _ _ _) hin
  have hsum := row_step hreal hcompact hnext hacc hadd
  rw [honestState, stateFromLimbs_eq, rowOutput, hs, hk, hsum, hadd]
  have e : case.r0In + (k + 1) * case.r1In = case.r0In + k * case.r1In + case.r1In := by ring
  have ek : fromU32Unchecked k + 1 = fromU32Unchecked (k + 1) := (Nat.cast_succ k).symm
  rw [e, ek]
  rfl

theorem limbsM31_inj {a b : ℕ} (h : limbsM31 a = limbsM31 b) : a % 2 ^ 256 = b % 2 ^ 256 := by
  refine biguintToLimbs_inj (List.ext_getElem (by simp) fun i h1 h2 => ?_)
  have hi : i < LIMBS := by simpa using h1
  have e := congrArg (fun l => (l.getD i (0 : M31)).val) h
  simp only [getD_limbsM31 _ hi] at e
  have ha := limb_lt a i
  have hb := limb_lt b i
  rw [val_natCast_of_lt (by omega), val_natCast_of_lt (by omega)] at e
  rw [← List.getD_eq_getElem _ 0 h1, ← List.getD_eq_getElem _ 0 h2, getD_biguintToLimbs _ hi,
    getD_biguintToLimbs _ hi, e]

theorem natCast_m31_inj {a b : ℕ} (ha : a < 2147483647) (hb : b < 2147483647)
    (h : (a : M31) = (b : M31)) : a = b := by
  have := congrArg ZMod.val h
  rwa [val_natCast_of_lt ha, val_natCast_of_lt hb] at this

section Registers

variable {rangeCheck : RangeCheckMode} {cases : List TestCase} {K : ℕ} {t : Trace}

/-- **The repetition index of an active row is below `K`.** -/
theorem active_level_lt (h : Accepted rangeCheck cases K t) (hrows : t.rows.length < 2147483647)
    (hK : K < 2147483647) : ∀ row ∈ t.active, (stateLevel (rowInput row)).val < K := by
  obtain ⟨initial, final, hpub, hbal⟩ := h.state
  obtain ⟨hinit, hfinal, _⟩ := publicBoundary_spec hpub
  have hactive : t.active.length ≤ t.rows.length := List.length_filter_le _ _
  have hlevel := level_lt_of_balance stateLevel (k := (K : M31))
    (state_balance h.constraints hbal) (fun _ _ => rfl)
    (fun x hx => by
      rw [Multiset.mem_coe, hinit] at hx
      obtain ⟨p, _, rfl⟩ := List.mem_map.mp hx
      rw [stateLevel_stateFromLimbs, Nat.cast_zero])
    (fun x hx => by
      obtain ⟨p, _, v, rfl⟩ := hfinal x (Multiset.mem_coe.mp hx)
      rw [stateLevel_stateFromLimbs])
    (by rw [Multiset.coe_card]; omega)
  rwa [val_natCast_of_lt hK] at hlevel

/-- **Every final tuple is an honest state.** -/
theorem final_honest (hmode : rangeCheck ≠ .off) (h : Accepted rangeCheck cases K t)
    (hrows : t.rows.length < 2147483647) (hK : K < 2147483647) {initial final : List (List M31)}
    (hpub : publicBoundary K 0 cases = some (initial, final))
    (hbal : Balances .state (t.entries rangeCheck) initial final) :
    ∀ x ∈ final, ∃ p ∈ cases.zipIdx, ∃ k ≤ K, x = honestState p.1 p.2 k := by
  obtain ⟨hinit, _, _⟩ := publicBoundary_spec hpub
  have hlevel := active_level_lt h hrows hK
  have hclosed := balance_closed _ rowInput rowOutput _ _
    (fun x => ∃ p ∈ cases.zipIdx, ∃ k ≤ K, x = honestState p.1 p.2 k)
    (state_balance h.constraints hbal)
    (fun x hx => by
      rw [Multiset.mem_coe, hinit] at hx
      obtain ⟨p, hp, rfl⟩ := List.mem_map.mp hx
      exact ⟨p, hp, 0, Nat.zero_le _, by simp [honestState]⟩)
    (fun row hrow ⟨p, hp, k, hk, hin⟩ => by
      have hrow' := List.mem_filter.mp (Multiset.mem_coe.mp hrow)
      have hreal : rowIsReal row = 1 := by simpa using hrow'.2
      have hlt := hlevel row (Multiset.mem_coe.mp hrow)
      rw [hin, honestState, stateLevel_stateFromLimbs, val_natCast_of_lt (by omega)] at hlt
      have hc := h.constraints row hrow'.1
      rw [evaluate_constraints] at hc
      exact ⟨p, hp, k + 1, hlt, honest_step hreal (List.forall_mem_append.mp hc).1
        (next_range hmode h hrow'.1 hreal) hin⟩)
  exact fun x hx => hclosed x (Multiset.mem_coe.mpr hx)

/-- The register of a final tuple that is an honest state. -/
theorem register_of_honest {i j v k : ℕ} {case other : TestCase} (hi : i < 2147483647)
    (hj : j < 2147483647) (hK : K < 2147483647) (hk : k ≤ K)
    (h : stateFromLimbs i K (biguintToLimbs v) (biguintToLimbs case.r1In) = honestState other j k) :
    i = j ∧ k = K ∧ v % 2 ^ 256 = (other.r0In + k * other.r1In) % 2 ^ 256 := by
  rw [honestState, stateFromLimbs_eq, stateFromLimbs_eq] at h
  obtain ⟨hs, hlevel, hacc, _⟩ := stateFromLimbs_inj (by simp) h
  exact ⟨natCast_m31_inj hi hj hs, (natCast_m31_inj hK (by omega) hlevel).symm, limbsM31_inj hacc⟩

/-- **The registers of an accepted trace**, of any number of rows below the field's size. -/
theorem final_registers (hmode : rangeCheck ≠ .off) (h : Accepted rangeCheck cases K t)
    (hrows : t.rows.length < 2147483647) (hcases : cases.length < 2147483647)
    (hK : K < 2147483647) : ∀ case ∈ cases, lowRegisterFromStateHex case.yHex =
      some ((case.r0In + K * case.r1In) % 2 ^ 256) := by
  obtain ⟨initial, final, hpub, hbal⟩ := h.state
  obtain ⟨_, _, hcase⟩ := publicBoundary_spec hpub
  intro case hmem
  obtain ⟨i, hi, rfl⟩ := List.getElem_of_mem hmem
  obtain ⟨v, hv, hvmem⟩ := hcase (cases[i], i) (List.mem_zipIdx_iff_getElem?.mpr (by simp [hi]))
  obtain ⟨p, hp, k, hk, e⟩ := final_honest hmode h hrows hK hpub hbal _ hvmem
  have hp := List.mem_zipIdx_iff_getElem?.mp hp
  obtain ⟨hplt, hpget⟩ := List.getElem?_eq_some_iff.mp hp
  obtain ⟨rfl, rfl, hreg⟩ := register_of_honest (by omega) (by omega) hK hk e
  rw [hv, ← Nat.mod_eq_of_lt (lowRegisterFromStateHex_lt hv), hreg, hpget]

end Registers

/-- **Soundness of the native iadd256 program.** With limb range checks on, every claimed final
    register of an accepted proof is the `K`-fold sum. -/
theorem iadd_sound (rangeCheck : RangeCheckMode) (hmode : rangeCheck ≠ .off)
    (cases : List TestCase) (hcases : cases.length < 2 ^ 31 - 1)
    (repetitions : ℕ) (hreps : repetitions < 2 ^ 31 - 1)
    (t : Trace) (hrows : t.rows.length ≤ 2 ^ 30)
    (h : Accepted rangeCheck cases repetitions t) :
    ∀ case ∈ cases, lowRegisterFromStateHex case.yHex =
      some ((case.r0In + repetitions * case.r1In) % 2 ^ 256) := by
  exact final_registers hmode h (by omega) (by omega) (by omega)

/-- The theorem at `5 + 2 * 7`. -/
theorem iadd_sound_sample : lowRegisterFromStateHex sampleCase.yHex =
    some ((sampleCase.r0In + 2 * sampleCase.r1In) % 2 ^ 256) :=
  iadd_sound .bits (by decide) [sampleCase] (by decide) 2 (by decide)
    (honestTrace 2 [sampleCase]) (by decide)
    (honest_accepted fun _ hc => by rw [List.mem_singleton.mp hc]; exact sampleCase_honest)
    sampleCase List.mem_cons_self

end GroverTax.NativeAir
