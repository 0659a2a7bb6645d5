/-
  File:      GroverTax/NativeAir/Relations.lean
  Subject:   The relation entries of a trace as multisets of tuples.

  * `tuples_cons`, `mem_tuples` -- what a list of entries contributes to a relation;
  * `state_tuples` -- an active row contributes its input tuple and its output tuple to the state
    relation, an inactive row nothing;
  * `publicBoundary_spec` -- the public tuples, case by case.
-/
import GroverTax.NativeAir.Air

namespace GroverTax.NativeAir

open GroverTax.Lib EvalAtRow

/-! ## 1. Tuples of a list of entries -/

theorem tuples_append (r : RelationId) (neg : Bool) (es fs : List RelationEntry) :
    tuples r neg (es ++ fs) = tuples r neg es + tuples r neg fs := by
  simp [tuples]

theorem tuples_cons (r : RelationId) (neg : Bool) (x : RelationEntry) (es : List RelationEntry) :
    tuples r neg (x :: es) =
      (if x.relation = r ∧ x.negated = neg then Multiset.replicate x.multiplicity.val x.values
        else 0) + tuples r neg es := by
  unfold tuples
  rw [List.filter_cons]
  split_ifs with h1 h2 h2 <;> simp_all

theorem tuples_eq_zero {r : RelationId} {neg : Bool} : ∀ {es : List RelationEntry},
    (∀ x ∈ es, ¬ (x.relation = r ∧ x.negated = neg)) → tuples r neg es = 0
  | [], _ => rfl
  | x :: es, h => by
      rw [tuples_cons, if_neg (h x List.mem_cons_self), zero_add]
      exact tuples_eq_zero fun y hy => h y (List.mem_cons_of_mem _ hy)

theorem mem_tuples {r : RelationId} {neg : Bool} {v : List M31} :
    ∀ {es : List RelationEntry}, v ∈ tuples r neg es ↔
      ∃ x ∈ es, x.relation = r ∧ x.negated = neg ∧ x.multiplicity.val ≠ 0 ∧ x.values = v
  | [] => by simp [tuples]
  | x :: es => by
      rw [tuples_cons, Multiset.mem_add, mem_tuples]
      by_cases h : x.relation = r ∧ x.negated = neg
      · rw [if_pos h, Multiset.mem_replicate]
        simp only [List.exists_mem_cons_iff, h.1, h.2, true_and]
        rw [eq_comm (a := v)]
      · rw [if_neg h]
        simp only [Multiset.notMem_zero, false_or, List.exists_mem_cons_iff]
        refine ⟨Or.inr, fun h' => h'.resolve_left fun h'' => h ⟨h''.1, h''.2.1⟩⟩

/-- Every lookup of an entry that counts is answered by a negated entry. -/
theorem lookup_answered {r : RelationId} {es : List RelationEntry} (hb : Balances r es 0 0)
    {x : RelationEntry} (hx : x ∈ es) (hr : x.relation = r) (hneg : x.negated = false)
    (hm : x.multiplicity.val ≠ 0) : ∃ y ∈ es, y.relation = r ∧ y.negated = true ∧
      y.values = x.values := by
  have h : x.values ∈ tuples r false es := mem_tuples.mpr ⟨x, hx, hr, hneg, hm, rfl⟩
  have hb' : tuples r false es = tuples r true es := by simpa [Balances] using hb
  rw [hb'] at h
  obtain ⟨y, hy, h1, h2, _, h3⟩ := mem_tuples.mp h
  exact ⟨y, hy, h1, h2, h3⟩

theorem lookupEntries_spec {row : ℕ → M31} {isReal : M31} : ∀ {limbs : List M31}
    {limbIdx col : ℕ}, ∀ x ∈ lookupEntries row isReal limbIdx col limbs,
      x.relation ≠ .state ∧ x.negated = false
  | [], _, _, _, h => absurd h List.not_mem_nil
  | _ :: limbs, limbIdx, col, x, h => by
      simp only [lookupEntries, List.mem_cons] at h
      rcases h with rfl | rfl | h
      · exact ⟨(by decide : RelationId.seq18 ≠ .state), rfl⟩
      · exact ⟨(highRelation_ne limbIdx).1, rfl⟩
      · exact lookupEntries_spec x h

/-- Both chunks of a limb are looked up. -/
theorem mem_lookupEntries (row : ℕ → M31) (isReal : M31) : ∀ (limbs : List M31)
    (limbIdx col i : ℕ), i < limbs.length →
      ⟨.seq18, false, isReal, [row (col + 2 * i)]⟩ ∈ lookupEntries row isReal limbIdx col limbs ∧
      ⟨highRelation (limbIdx + i), false, isReal, [row (col + 2 * i + 1)]⟩ ∈
        lookupEntries row isReal limbIdx col limbs
  | [], _, _, _, hi => absurd hi (Nat.not_lt_zero _)
  | _ :: limbs, limbIdx, col, 0, _ => by simp [lookupEntries]
  | _ :: limbs, limbIdx, col, i + 1, hi => by
      obtain ⟨h1, h2⟩ := mem_lookupEntries row isReal limbs (limbIdx + 1)
        (col + 2) i (Nat.lt_of_succ_lt_succ hi)
      rw [show col + 2 + 2 * i = col + 2 * (i + 1) by ring] at h1 h2
      rw [Nat.add_assoc, Nat.add_comm 1 i] at h2
      simp only [lookupEntries, List.mem_cons]
      exact ⟨Or.inr (Or.inr h1), Or.inr (Or.inr h2)⟩

/-! ## 2. The state relation -/

/-- The state entries of the rows: one tuple for an active row, none for any other. -/
theorem state_tuples (rangeCheck : RangeCheckMode) (neg : Bool) : ∀ (rows : List (ℕ → M31)),
    (∀ row ∈ rows, rowIsReal row = 0 ∨ rowIsReal row = 1) →
      tuples .state neg (rows.flatMap fun row => (evaluate rangeCheck (start row)).entries) =
        (((rows.filter fun row => rowIsReal row = 1) : List (ℕ → M31)) : Multiset (ℕ → M31)).map
          (if neg then rowOutput else rowInput)
  | [], _ => by simp [tuples]
  | row :: rows, h => by
      have ih := state_tuples rangeCheck neg rows fun r hr =>
        h r (List.mem_cons_of_mem _ hr)
      have hlook : tuples .state neg (if rangeCheck = .lookup then
          lookupEntries row (rowIsReal row) 0 39 (rowNext row) else []) = 0 := by
        refine tuples_eq_zero fun x hx hc => ?_
        split at hx
        · exact (lookupEntries_spec x hx).1 hc.1
        · exact List.not_mem_nil hx
      rw [List.flatMap_cons, tuples_append, ih, evaluate_entries, tuples_cons, tuples_cons, hlook]
      rcases h row List.mem_cons_self with h0 | h1
      · have hne : (0 : M31) ≠ 1 := by decide
        cases neg <;> simp [h0, hne]
      · have hv : (1 : M31).val = 1 := rfl
        cases neg <;> simp [h1, hv]

/-! ## 3. The public boundary -/

/-- The state of sample `sampleIdx` after `k` honest repetitions. -/
def honestState (case : TestCase) (sampleIdx k : ℕ) : List M31 :=
  stateFromLimbs sampleIdx k (biguintToLimbs (case.r0In + k * case.r1In))
    (biguintToLimbs case.r1In)

/-- The repetition index of a state tuple. -/
def stateLevel (t : List M31) : M31 := t.getD 1 0

theorem stateLevel_stateFromLimbs (s k a b : ℕ) :
    stateLevel (stateFromLimbs s k (biguintToLimbs a) (biguintToLimbs b)) = (k : M31) := by
  rw [stateFromLimbs_eq]
  rfl

/-- The public tuples, case by case. -/
theorem publicBoundary_spec {repetitions : ℕ} : ∀ {cases : List TestCase} {s : ℕ}
    {initial final : List (List M31)},
    publicBoundary repetitions s cases = some (initial, final) →
      initial = (cases.zipIdx s).map (fun p => stateFromLimbs p.2 0 (biguintToLimbs p.1.r0In)
        (biguintToLimbs p.1.r1In)) ∧
      (∀ t ∈ final, ∃ p ∈ cases.zipIdx s, ∃ v, t = stateFromLimbs p.2 repetitions
        (biguintToLimbs v) (biguintToLimbs p.1.r1In)) ∧
      ∀ p ∈ cases.zipIdx s, ∃ v, lowRegisterFromStateHex p.1.yHex = some v ∧
        stateFromLimbs p.2 repetitions (biguintToLimbs v) (biguintToLimbs p.1.r1In) ∈ final
  | [], s, _, _, h => by
      cases h
      simp
  | case :: cases, s, initial, final, h => by
      simp only [publicBoundary, Option.bind_eq_bind, Option.bind_eq_some_iff, Option.pure_def,
        Option.some.injEq, Prod.mk.injEq] at h
      obtain ⟨v, hv, ⟨i', f'⟩, hrec, rfl, rfl⟩ := h
      obtain ⟨h1, h2, h3⟩ := publicBoundary_spec hrec
      simp only [List.zipIdx_cons, List.map_cons, List.mem_cons, forall_eq_or_imp]
      refine ⟨by rw [h1], ⟨⟨_, Or.inl rfl, v, rfl⟩, fun t ht => ?_⟩, ⟨v, hv, Or.inl rfl⟩,
        fun p hp => ?_⟩
      · obtain ⟨p, hp, w, e⟩ := h2 t ht
        exact ⟨p, Or.inr hp, w, e⟩
      · obtain ⟨w, hw, hmem⟩ := h3 p hp
        exact ⟨w, hw, Or.inr hmem⟩

end GroverTax.NativeAir
