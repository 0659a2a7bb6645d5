/-
  File:      GroverTax/NativeAir/Verifier.lean
  Subject:   The claimed sums the verifier of benchmarks/stwo/iadd256/native-air/src/main.rs
             computes, and how often a false claim passes them at random challenges.

  The four relations draw their challenges one apart from the other. The trace is committed before
  they are drawn; the lookup counts are not, and may depend on them.

  * `VerifierPasses` -- the claimed sums are those of the components, or a denominator vanishes;
  * `card_cancel_le` -- **entries that do not cancel** pass for few challenges;
  * `accepted_of_netWeight` -- entries that cancel over the field balance exactly: no tuple is
    counted as often as the field has elements;
  * **`verifier_sound`** -- **the share of challenges at which a false claim passes.**
-/
import GroverTax.Lib.LogUp
import GroverTax.NativeAir.ClaimedSum
import Mathlib.FieldTheory.Finite.GaloisField

namespace GroverTax.NativeAir

open GroverTax.Lib EvalAtRow Finset

/-! ## 1. The verifier's claimed sums -/

instance fintype_relationId : Fintype RelationId where
  elems := {.state, .seq18, .seq11, .seq6}
  complete := fun r => by cases r <;> decide

/-- The width a relation is declared with. -/
def relationWidth : RelationId → ℕ
  | .state => IADD_STATE_WIDTH
  | .seq18 | .seq11 | .seq6 => 1

/-- The components `build_components` makes, each as what it emits. -/
def Trace.components (rangeCheck : RangeCheckMode) (t : Trace) : List (List RelationEntry) :=
  (t.rows.flatMap fun row => (evaluate rangeCheck (start row)).entries) ::
    if rangeCheck = .lookup then
      [seqLookupEntries .seq18 LOOKUP_CHUNK_BITS t.mult18,
        seqLookupEntries .seq11 (LIMB_BITS - LOOKUP_CHUNK_BITS) t.mult11,
        seqLookupEntries .seq6 (TOP_LIMB_BITS - LOOKUP_CHUNK_BITS) t.mult6]
    else []

section Sums

variable {F : Type} [Field F] [Algebra M31 F] (combine : RelationId → List M31 → F)

/-- `verifier_claimed_sums`, one for each component. -/
def verifierClaimedSums (cases : List TestCase) (repetitions : ℕ) (counts : Option LookupCounts) :
    Option (List F) := do
  let verifierBoundarySum ← publicBoundarySum combine cases repetitions
  match counts with
  | none => return [verifierBoundarySum + 0]
  | some counts =>
      return [verifierBoundarySum + lookupPublicSum combine counts,
        -seqLookupPublicSum combine .seq18 counts.seq18,
        -seqLookupPublicSum combine .seq11 counts.seq11,
        -seqLookupPublicSum combine .seq6 counts.seq6]

/-- The sum of the fractions of a component's entries. -/
def componentSum (entries : List RelationEntry) : F := (entries.map (entryFraction combine)).sum

/-- Some denominator of the entries vanishes. -/
def HasPole (entries : List RelationEntry) : Prop :=
  ∃ x ∈ entries, combine x.relation x.values = 0

/-- **What passes the verifier's claimed sums.** The framework certifies that a claimed sum is the
    sum of its component's fractions, where no denominator vanishes; where one does, anything
    passes. The counts are any the prover hands over. -/
def VerifierPasses (rangeCheck : RangeCheckMode) (cases : List TestCase) (repetitions : ℕ)
    (t : Trace) : Prop :=
  ∃ counts sums, (counts.isSome ↔ rangeCheck = .lookup) ∧
    verifierClaimedSums combine cases repetitions counts = some sums ∧
    (HasPole combine (t.entries rangeCheck) ∨
      (t.components rangeCheck).map (componentSum combine) = sums)

variable {combine}

instance decidable_hasPole [DecidableEq F] (entries : List RelationEntry) :
    Decidable (HasPole combine entries) :=
  inferInstanceAs (Decidable (∃ x ∈ entries, combine x.relation x.values = 0))

theorem flatten_components (rangeCheck : RangeCheckMode) (t : Trace) :
    (t.components rangeCheck).flatten = t.entries rangeCheck := by
  unfold Trace.components Trace.entries
  split <;> simp

theorem componentSum_append (es fs : List RelationEntry) :
    componentSum combine (es ++ fs) = componentSum combine es + componentSum combine fs := by
  rw [componentSum, List.map_append, List.sum_append]
  rfl

theorem componentSum_flatten : ∀ components : List (List RelationEntry),
    componentSum combine components.flatten = (components.map (componentSum combine)).sum
  | [] => rfl
  | es :: components => by
      rw [List.flatten_cons, componentSum_append, componentSum_flatten components, List.map_cons,
        List.sum_cons]

/-- The public tuples as entries: the initial states negated, the final states not. -/
def publicEntries (initial final : List (List M31)) : List RelationEntry :=
  (initial.map fun v => ⟨.state, true, 1, v⟩) ++ final.map fun v => ⟨.state, false, 1, v⟩

theorem publicEntries_cons (u v : List M31) (initial final : List (List M31)) :
    componentSum combine (publicEntries (u :: initial) (v :: final)) =
      componentSum combine (publicEntries initial final) -
        ((combine .state u)⁻¹ - (combine .state v)⁻¹) := by
  simp only [componentSum, publicEntries, List.map_append, List.map_cons, List.map_map,
    List.sum_append, List.sum_cons, entryFraction, if_true, Bool.false_eq_true, if_false, map_one,
    neg_div, one_div]
  ring

/-- **The boundary sum is the sum of the public entries**, with the other sign. -/
theorem run_boundary {K : ℕ} (hK : K < 2 ^ 32) : ∀ (cases : List TestCase) {i : ℕ} {sum b : F},
    i + cases.length ≤ 2 ^ 32 → run (publicBoundaryStep combine K) sum (cases.zipIdx i) = some b →
      ∃ initial final, publicBoundary K i cases = some (initial, final) ∧
        b + componentSum combine (publicEntries initial final) = sum
  | [], i, sum, b, _, h => by
      obtain rfl : sum = b := Option.some.inj h
      exact ⟨[], [], rfl, add_zero _⟩
  | case :: cases, i, sum, b, hi, h => by
      rw [List.length_cons] at hi
      rw [List.zipIdx_cons, run_cons, Option.bind_eq_some_iff] at h
      obtain ⟨next, hstep, h⟩ := h
      simp only [publicBoundaryStep, asU32_of_lt hK, asU32_of_lt (show i < 2 ^ 32 by omega),
        Option.bind_eq_bind, Option.bind_eq_some_iff, Option.pure_def, Option.some.injEq] at hstep
      obtain ⟨v, hv, rfl⟩ := hstep
      obtain ⟨initial, final, hpub, hsum⟩ := run_boundary hK cases (by omega) h
      refine ⟨_, _, by rw [publicBoundary, hv, hpub]; rfl, ?_⟩
      rw [publicEntries_cons, ← add_sub_assoc, hsum]
      ring

/-- **What passes has its boundary, and a pole or a sum of zero.** -/
theorem passes_sum {rangeCheck : RangeCheckMode} {cases : List TestCase} {K : ℕ} {t : Trace}
    (hcases : cases.length ≤ 2 ^ 32) (hK : K < 2 ^ 32)
    (h : VerifierPasses combine rangeCheck cases K t) :
    ∃ initial final, publicBoundary K 0 cases = some (initial, final) ∧
      (HasPole combine (t.entries rangeCheck) ∨
        componentSum combine (t.entries rangeCheck ++ publicEntries initial final) = 0) := by
  obtain ⟨counts, sums, _, hsums, h⟩ := h
  simp only [verifierClaimedSums, Option.bind_eq_bind, Option.bind_eq_some_iff] at hsums
  obtain ⟨b, hb, hsums⟩ := hsums
  obtain ⟨initial, final, hpub, hbsum⟩ := run_boundary hK cases (by omega) hb
  refine ⟨initial, final, hpub, h.imp_right fun hcert => ?_⟩
  -- the lookup sums cancel
  have htotal : sums.sum = b := by
    cases counts with
    | none =>
      obtain rfl := Option.some.inj hsums
      simp
    | some counts =>
      obtain rfl := Option.some.inj hsums
      simp only [lookupPublicSum, List.sum_cons, List.sum_nil]
      ring
  rw [componentSum_append, ← flatten_components, componentSum_flatten, hcert, htotal, hbsum]

end Sums

/-! ## 2. Entries that do not cancel -/

/-- A multiplicity with the sign of its entry. -/
def signedMultiplicity (x : RelationEntry) : M31 :=
  if x.negated then -x.multiplicity else x.multiplicity

/-- What the entries of a relation add up to at a tuple. -/
def netWeight (r : RelationId) (v : List M31) (es : List RelationEntry) : M31 :=
  (es.map fun x => if x.relation = r ∧ x.values = v then signedMultiplicity x else 0).sum

theorem exists_of_netWeight {r : RelationId} {v : List M31} {es : List RelationEntry}
    (h : netWeight r v es ≠ 0) : ∃ x ∈ es, x.relation = r ∧ x.values = v := by
  by_contra hne
  refine h (List.sum_eq_zero fun m hm => ?_)
  obtain ⟨x, hx, rfl⟩ := List.mem_map.mp hm
  exact if_neg fun hxr => hne ⟨x, hx, hxr⟩

section Few

variable {F : Type} [Field F] [Algebra M31 F]

/-- What `relation!` documents of `combine`: the values times the powers of `alpha`, less `z`. -/
def Combines (combine : RelationId → F × F → List M31 → F) : Prop :=
  ∀ r e values, values.length = relationWidth r →
    combine r e values = foldTuple e.2 (values.map (algebraMap M31 F)) - e.1

theorem map_algebraMap_inj {u v : List M31} :
    u.map (algebraMap M31 F) = v.map (algebraMap M31 F) ↔ u = v :=
  List.map_inj_right fun _ _ h => (algebraMap M31 F).injective h

variable [Fintype F] [DecidableEq F] {combine : RelationId → F × F → List M31 → F}
  {es : List RelationEntry}

/-- A tuple is a pole at one draw in as many as the field has elements. -/
theorem card_pole_le (hcombine : Combines combine) {x : RelationEntry}
    (hx : x.values.length = relationWidth x.relation) :
    Fintype.card F * #{e : RelationId → F × F | combine x.relation (e x.relation) x.values = 0} ≤
      Fintype.card (RelationId → F × F) := by
  have hq : 0 < Fintype.card F := Fintype.card_pos
  have h := card_filter_le_of_update x.relation
    (fun e : RelationId → F × F => combine x.relation (e x.relation) x.values = 0)
    (b := Fintype.card F) fun e => by
      rw [← card_pole (x.values.map (algebraMap M31 F))]
      refine (Finset.card_le_card fun p hp => ?_)
      have hp := (Finset.mem_filter.mp hp).2
      rw [Function.update_self, hcombine _ _ _ hx, sub_eq_zero] at hp
      exact Finset.mem_filter.mpr ⟨Finset.mem_univ _, hp⟩
  rw [Fintype.card_prod, mul_assoc] at h
  exact Nat.le_of_mul_le_mul_left h hq

omit [Fintype F] [DecidableEq F] in
theorem entryFraction_eq (combine : RelationId → List M31 → F) (x : RelationEntry) :
    entryFraction combine x =
      algebraMap M31 F (signedMultiplicity x) / combine x.relation x.values := by
  unfold entryFraction signedMultiplicity
  split
  · rw [map_neg]
  · rfl

/-- The entries of a relation. -/
def placesOf (r : RelationId) (es : List RelationEntry) : Finset (Fin es.length) :=
  {i | (es.get i).relation = r}

omit [Fintype F] in
/-- The weight at a tuple, over the field of the challenges. -/
theorem sum_placesOf (r : RelationId) (v : List M31) : ∑ i ∈ placesOf r es with
    ((es.get i).values.map (algebraMap M31 F)) = v.map (algebraMap M31 F),
      algebraMap M31 F (signedMultiplicity (es.get i)) = algebraMap M31 F (netWeight r v es) := by
  rw [netWeight, ← Fin.sum_univ_fun_getElem, map_sum, placesOf, filter_filter, sum_filter]
  refine sum_congr rfl fun i _ => ?_
  simp only [map_algebraMap_inj, List.get_eq_getElem]
  rw [apply_ite (algebraMap M31 F), map_zero]

omit [Fintype F] [DecidableEq F] in
/-- **One relation's draw, the others' kept**: the entries of the relation are fractions at the
    draw, those of the others do not change. -/
theorem fractions_of_update (hcombine : Combines combine)
    (hwidth : ∀ x ∈ es, x.values.length = relationWidth x.relation) (r : RelationId)
    (e : RelationId → F × F) (p : F × F)
    (hpole : ¬ HasPole (fun r' => combine r' (Function.update e r p r')) es)
    (hzero : componentSum (fun r' => combine r' (Function.update e r p r')) es = 0) :
    (∀ i ∈ placesOf r es, foldTuple p.2 ((es.get i).values.map (algebraMap M31 F)) ≠ p.1) ∧
      ∑ i ∈ placesOf r es, algebraMap M31 F (signedMultiplicity (es.get i)) /
        (foldTuple p.2 ((es.get i).values.map (algebraMap M31 F)) - p.1) =
          -∑ i with ¬ (es.get i).relation = r,
            entryFraction (fun r' => combine r' (e r')) (es.get i) := by
  have hin : ∀ i ∈ placesOf r es, combine (es.get i).relation
      (Function.update e r p (es.get i).relation) (es.get i).values =
        foldTuple p.2 ((es.get i).values.map (algebraMap M31 F)) - p.1 := by
    intro i hi
    have hr : (es.get i).relation = r := (mem_filter.mp hi).2
    rw [hr, Function.update_self]
    exact hcombine r p _ (hr ▸ hwidth _ (List.get_mem es i))
  refine ⟨fun i hi h0 => hpole ⟨es.get i, List.get_mem es i, ?_⟩, ?_⟩
  · exact (hin i hi).trans (sub_eq_zero.mpr h0)
  · rw [componentSum, ← Fin.sum_univ_fun_getElem,
      ← sum_filter_add_sum_filter_not univ fun i => (es.get i).relation = r] at hzero
    rw [eq_neg_iff_add_eq_zero, ← hzero]
    refine congrArg₂ (· + ·) (sum_congr rfl fun i hi => ?_) (sum_congr rfl fun i hi => ?_)
    · rw [← hin i hi, ← List.get_eq_getElem, entryFraction_eq]
    · rw [← List.get_eq_getElem, entryFraction, entryFraction,
        Function.update_of_ne (mem_filter.mp hi).2]

/-- **Entries that do not cancel at a tuple** have a sum of zero at few draws. -/
theorem card_sum_zero_le (hcombine : Combines combine)
    (hwidth : ∀ x ∈ es, x.values.length = relationWidth x.relation) {r : RelationId} {v : List M31}
    (h : netWeight r v es ≠ 0) :
    Fintype.card F * #{e : RelationId → F × F | ¬ HasPole (fun r => combine r (e r)) es ∧
      componentSum (fun r => combine r (e r)) es = 0} ≤
        20 * es.length * Fintype.card (RelationId → F × F) := by
  have hq : 0 < Fintype.card F := Fintype.card_pos
  obtain ⟨x, hx, hxr, hxv⟩ := exists_of_netWeight h
  have hw : 0 < relationWidth r ∧ relationWidth r ≤ 20 := by cases r <;> decide
  have hlen : ∀ i ∈ placesOf r es,
      ((es.get i).values.map (algebraMap M31 F)).length = relationWidth r := by
    intro i hi
    rw [List.length_map, hwidth _ (List.get_mem es i), (mem_filter.mp hi).2]
  have hv : (v.map (algebraMap M31 F)).length = relationWidth r := by
    rw [List.length_map, ← hxv, hwidth x hx, hxr]
  have hsum : ∑ i ∈ placesOf r es with
      ((es.get i).values.map (algebraMap M31 F)) = v.map (algebraMap M31 F),
        algebraMap M31 F (signedMultiplicity (es.get i)) ≠ 0 := by
    rw [sum_placesOf]
    exact fun h0 => h ((map_eq_zero _).mp h0)
  have hplaces : #(placesOf r es) ≤ es.length := (card_le_univ _).trans_eq (Fintype.card_fin _)
  have hbound := card_filter_le_of_update r
    (fun e : RelationId → F × F => ¬ HasPole (fun r => combine r (e r)) es ∧
      componentSum (fun r => combine r (e r)) es = 0)
    (b := 20 * es.length * Fintype.card F) fun e => by
      refine (card_challenges_le _ _ _ hw.1 hlen hv hsum
        (-∑ i with ¬ (es.get i).relation = r, entryFraction (fun r' => combine r' (e r')) (es.get i))
        _ fun p hp => fractions_of_update hcombine hwidth r e p hp.1 hp.2).trans ?_
      exact Nat.mul_le_mul_right _ (Nat.mul_le_mul hw.2 hplaces)
  rw [Fintype.card_prod, mul_assoc, mul_comm _ (Fintype.card F), mul_assoc] at hbound
  exact Nat.le_of_mul_le_mul_left hbound hq

/-- Few draws have a pole: one in as many as the field has elements, for each entry. -/
theorem card_hasPole_le (hcombine : Combines combine)
    (hwidth : ∀ x ∈ es, x.values.length = relationWidth x.relation) :
    Fintype.card F * #{e : RelationId → F × F | HasPole (fun r => combine r (e r)) es} ≤
      es.length * Fintype.card (RelationId → F × F) := by
  have hsub : ({e | HasPole (fun r => combine r (e r)) es} : Finset (RelationId → F × F)) ⊆
      (univ : Finset (Fin es.length)).biUnion fun i =>
        {e | combine (es.get i).relation (e (es.get i).relation) (es.get i).values = 0} := by
    intro e he
    obtain ⟨x, hx, hpole⟩ := (mem_filter.mp he).2
    obtain ⟨i, rfl⟩ := List.mem_iff_get.mp hx
    exact mem_biUnion.mpr ⟨i, mem_univ _, mem_filter.mpr ⟨mem_univ _, hpole⟩⟩
  refine (Nat.mul_le_mul_left _ ((card_le_card hsub).trans card_biUnion_le)).trans ?_
  rw [mul_sum]
  refine (sum_le_card_nsmul _ _ _ fun i _ =>
    card_pole_le hcombine (hwidth _ (List.get_mem es i))).trans_eq ?_
  rw [card_univ, Fintype.card_fin, smul_eq_mul]

/-- **Entries that do not cancel pass for few draws**: a pole, or a sum of zero. -/
theorem card_cancel_le (hcombine : Combines combine)
    (hwidth : ∀ x ∈ es, x.values.length = relationWidth x.relation) {r : RelationId} {v : List M31}
    (h : netWeight r v es ≠ 0) :
    Fintype.card F * #{e : RelationId → F × F | HasPole (fun r => combine r (e r)) es ∨
      componentSum (fun r => combine r (e r)) es = 0} ≤
        21 * es.length * Fintype.card (RelationId → F × F) := by
  have hsub : ({e : RelationId → F × F | HasPole (fun r => combine r (e r)) es ∨
      componentSum (fun r => combine r (e r)) es = 0} : Finset _) ⊆
        ({e | HasPole (fun r => combine r (e r)) es} : Finset (RelationId → F × F)) ∪
          ({e | ¬ HasPole (fun r => combine r (e r)) es ∧
            componentSum (fun r => combine r (e r)) es = 0} : Finset (RelationId → F × F)) := by
    intro e he
    have he := (mem_filter.mp he).2
    rw [mem_union, mem_filter, mem_filter]
    by_cases hp : HasPole (fun r => combine r (e r)) es
    · exact Or.inl ⟨mem_univ _, hp⟩
    · exact Or.inr ⟨mem_univ _, hp, he.resolve_left hp⟩
  calc Fintype.card F * #{e : RelationId → F × F | HasPole (fun r => combine r (e r)) es ∨
        componentSum (fun r => combine r (e r)) es = 0}
      ≤ Fintype.card F * (_ + _) :=
        Nat.mul_le_mul_left _ ((card_le_card hsub).trans (card_union_le _ _))
    _ ≤ es.length * Fintype.card (RelationId → F × F) +
          20 * es.length * Fintype.card (RelationId → F × F) := by
        rw [mul_add]
        exact Nat.add_le_add (card_hasPole_le hcombine hwidth)
          (card_sum_zero_le hcombine hwidth h)
    _ = 21 * es.length * Fintype.card (RelationId → F × F) := by ring

end Few

/-! ## 3. Exact balance -/

section Balance

variable {r : RelationId} {neg : Bool} {v : List M31}

/-- The count of a tuple over the field: what the entries of one sign add up to at it. -/
theorem natCast_count_tuples : ∀ es : List RelationEntry,
    (((tuples r neg es).count v : ℕ) : M31) = (es.map fun x =>
      if (x.relation = r ∧ x.negated = neg) ∧ x.values = v then x.multiplicity else 0).sum
  | [] => by simp [tuples]
  | x :: es => by
      rw [tuples_cons, Multiset.count_add, Nat.cast_add, natCast_count_tuples es, List.map_cons,
        List.sum_cons]
      congr 1
      by_cases h : x.relation = r ∧ x.negated = neg
      · by_cases hv : x.values = v
        · rw [if_pos h, if_pos ⟨h, hv⟩, Multiset.count_replicate, if_pos hv, ZMod.natCast_zmod_val]
        · rw [if_pos h, if_neg fun hc => hv hc.2, Multiset.count_replicate, if_neg hv, Nat.cast_zero]
      · rw [if_neg h, if_neg fun hc => h hc.1, Multiset.count_zero, Nat.cast_zero]

/-- **The net weight is the difference of the counts.** -/
theorem netWeight_eq (r : RelationId) (v : List M31) (es : List RelationEntry) :
    netWeight r v es = (((tuples r false es).count v : ℕ) : M31) -
      (((tuples r true es).count v : ℕ) : M31) := by
  rw [natCast_count_tuples, natCast_count_tuples, eq_sub_iff_add_eq, netWeight,
    ← List.sum_map_add]
  refine congrArg List.sum (List.map_congr_left fun x _ => ?_)
  unfold signedMultiplicity
  cases x.negated <;> by_cases hr : x.relation = r <;> by_cases hv : x.values = v <;>
    simp [hr, hv]

/-- **Entries that cancel over the field balance**, if no tuple is counted as often as the field
    has elements. -/
theorem tuples_eq_of_netWeight {es : List RelationEntry} (h : ∀ v, netWeight r v es = 0)
    (hlt : ∀ neg v, (tuples r neg es).count v < 2147483647) :
    tuples r false es = tuples r true es := by
  refine Multiset.ext.mpr fun v => ?_
  have hv := h v
  rw [netWeight_eq, sub_eq_zero] at hv
  exact natCast_m31_inj (hlt false v) (hlt true v) hv

/-- A list of entries that count once. -/
theorem tuples_map_one (r' : RelationId) (neg' : Bool) : ∀ l : List (List M31),
    tuples r neg (l.map fun v => ⟨r', neg', 1, v⟩) =
      if r' = r ∧ neg' = neg then (l : Multiset (List M31)) else 0
  | [] => by simp [tuples]
  | v :: l => by
      have hone : (1 : M31).val = 1 := rfl
      rw [List.map_cons, tuples_cons, tuples_map_one r' neg' l]
      by_cases h : r' = r ∧ neg' = neg
      · rw [if_pos h, if_pos h, if_pos h, hone, Multiset.replicate_one, Multiset.singleton_add,
          Multiset.cons_coe]
      · rw [if_neg h, if_neg h, if_neg h, add_zero]

theorem tuples_publicEntries_of_ne (hr : r ≠ .state) (initial final : List (List M31)) :
    tuples r neg (publicEntries initial final) = 0 := by
  rw [publicEntries, tuples_append, tuples_map_one, tuples_map_one, if_neg fun h => hr h.1.symm,
    if_neg fun h => hr h.1.symm, add_zero]

theorem tuples_publicEntries_state (neg : Bool) (initial final : List (List M31)) :
    tuples .state neg (publicEntries initial final) =
      ((if neg then initial else final : List (List M31)) : Multiset (List M31)) := by
  rw [publicEntries, tuples_append, tuples_map_one, tuples_map_one]
  cases neg <;> simp

/-! What a trace counts. -/

/-- Entries with different values count a tuple once. -/
theorem count_tuples_lt : ∀ {es : List RelationEntry},
    es.Pairwise (fun x y => x.values ≠ y.values) → (tuples r neg es).count v < 2147483647
  | [], _ => by simp [tuples]
  | x :: es, h => by
      rw [List.pairwise_cons] at h
      rw [tuples_cons, Multiset.count_add]
      by_cases hx : x.values = v
      · have hzero : (tuples r neg es).count v = 0 := by
          refine Multiset.count_eq_zero.mpr fun hmem => ?_
          obtain ⟨y, hy, _, _, _, hv⟩ := mem_tuples.mp hmem
          exact h.1 y hy (hx.trans hv.symm)
        rw [hzero, Nat.add_zero]
        split
        · rw [Multiset.count_replicate, if_pos hx]
          exact ZMod.val_lt _
        · rw [Multiset.count_zero]
          decide
      · have hzero : (if x.relation = r ∧ x.negated = neg then
            Multiset.replicate x.multiplicity.val x.values else 0).count v = 0 := by
          split
          · rw [Multiset.count_replicate, if_neg hx]
          · exact Multiset.count_zero v
        rw [hzero, Nat.zero_add]
        exact count_tuples_lt h.2

/-- The table of a lookup component holds every value once. -/
theorem pairwise_seqLookupEntries {bits : ℕ} (hbits : bits ≤ 18) (mult : ℕ → M31) :
    (seqLookupEntries r bits mult).Pairwise fun x y => x.values ≠ y.values := by
  have hle : 2 ^ bits ≤ 2 ^ 18 := Nat.pow_le_pow_right (by decide) hbits
  refine List.pairwise_map.mpr (List.nodup_range.imp_of_mem fun {i j} hi hj hne heq => hne ?_)
  have hi := List.mem_range.mp hi
  have hj := List.mem_range.mp hj
  exact natCast_m31_inj (by omega) (by omega) (List.cons.inj heq).1

/-- A limb is looked up once in a table. -/
theorem card_lookupEntries_le (row : ℕ → M31) {isReal : M31} (hreal : isReal.val ≤ 1) :
    ∀ (limbs : List M31) (limbIdx col : ℕ),
      (tuples r neg (lookupEntries row isReal limbIdx col limbs)).card ≤ limbs.length
  | [], _, _ => Nat.zero_le _
  | _ :: limbs, limbIdx, col => by
      have ih := card_lookupEntries_le row hreal limbs (limbIdx + 1) (col + 2)
      have hne := (highRelation_ne limbIdx).2
      rw [lookupEntries, tuples_cons, tuples_cons, Multiset.card_add, Multiset.card_add,
        List.length_cons]
      by_cases h18 : RelationId.seq18 = r
      · rw [if_neg fun hc : highRelation limbIdx = r ∧ _ => hne (hc.1.trans h18.symm),
          Multiset.card_zero]
        split
        · rw [Multiset.card_replicate]
          dsimp only
          omega
        · rw [Multiset.card_zero]
          omega
      · rw [if_neg fun hc : RelationId.seq18 = r ∧ _ => h18 hc.1, Multiset.card_zero]
        split
        · rw [Multiset.card_replicate]
          dsimp only
          omega
        · rw [Multiset.card_zero]
          omega

variable {rangeCheck : RangeCheckMode} {t : Trace}

theorem isReal_le (hc : t.ConstraintsHold rangeCheck) {row : ℕ → M31} (hrow : row ∈ t.rows) :
    (rowIsReal row).val ≤ 1 := by
  have h := hc row hrow (rowIsReal row * (rowIsReal row - 1)) (by
    rw [evaluate_constraints]
    exact List.mem_append_left _ List.mem_cons_self)
  rcases (mul_eq_zero.mp h).imp id sub_eq_zero.mp with h0 | h1
  · rw [h0]
    exact Nat.zero_le _
  · rw [h1]
    exact Nat.le_refl _

/-- The tuples of one sign a row counts in a relation. -/
def rowTuples : RelationId → ℕ
  | .state => 1
  | .seq18 | .seq11 | .seq6 => LIMBS

theorem card_row_le (hc : t.ConstraintsHold rangeCheck) {row : ℕ → M31} (hrow : row ∈ t.rows) :
    (tuples r neg (evaluate rangeCheck (start row)).entries).card ≤ rowTuples r := by
  have hreal := isReal_le hc hrow
  rw [evaluate_entries, tuples_cons, tuples_cons, Multiset.card_add, Multiset.card_add]
  by_cases hr : r = .state
  · subst hr
    -- one of the two state entries has the sign, no lookup is in the relation
    have hlook : tuples .state neg (if rangeCheck = .lookup then
        lookupEntries row (rowIsReal row) 0 39 (rowNext row) else []) = 0 := by
      split
      · exact tuples_eq_zero fun x hx hxr => (lookupEntries_spec x hx).1 hxr.1
      · rfl
    rw [hlook, Multiset.card_zero]
    cases neg <;> simpa [rowTuples] using hreal
  · have hne : ∀ n : Bool, ¬ (RelationId.state = r ∧ n = neg) := fun n h => hr h.1.symm
    have hwidth : rowTuples r = LIMBS := by cases r <;> [exact absurd rfl hr; rfl; rfl; rfl]
    rw [if_neg (hne false), if_neg (hne true), Multiset.card_zero, Nat.zero_add, Nat.zero_add,
      hwidth]
    split
    · exact card_lookupEntries_le row hreal (rowNext row) 0 39
    · exact Nat.zero_le _

theorem card_rows_le {b : ℕ} : ∀ {rows : List (ℕ → M31)},
    (∀ row ∈ rows, (tuples r neg (evaluate rangeCheck (start row)).entries).card ≤ b) →
      (tuples r neg (rows.flatMap fun row => (evaluate rangeCheck (start row)).entries)).card ≤
        b * rows.length
  | [], _ => by simp [tuples]
  | row :: rows, h => by
      rw [List.forall_mem_cons] at h
      have ih := card_rows_le h.2
      rw [List.flatMap_cons, tuples_append, Multiset.card_add, List.length_cons, Nat.mul_succ]
      omega

/-- The rows count no negated lookup. -/
theorem rows_negated (hr : r ≠ .state) (rows : List (ℕ → M31)) :
    tuples r true (rows.flatMap fun row => (evaluate rangeCheck (start row)).entries) = 0 := by
  refine tuples_eq_zero fun x hx hxr => ?_
  obtain ⟨row, _, hx⟩ := List.mem_flatMap.mp hx
  rw [evaluate_entries, List.mem_cons, List.mem_cons] at hx
  rcases hx with rfl | rfl | hx
  · exact hr hxr.1.symm
  · exact hr hxr.1.symm
  · split at hx
    · exact absurd ((lookupEntries_spec x hx).2.symm.trans hxr.2) Bool.false_ne_true
    · exact List.not_mem_nil hx

theorem tuples_seqLookupEntries_of_ne {r' : RelationId} (h : r' ≠ r ∨ neg = false) (bits : ℕ)
    (mult : ℕ → M31) : tuples r neg (seqLookupEntries r' bits mult) = 0 := by
  refine tuples_eq_zero fun x hx hxr => ?_
  obtain ⟨w, _, rfl⟩ := List.mem_map.mp hx
  exact h.elim (fun h => h hxr.1) fun h => Bool.false_ne_true (h.symm.trans hxr.2.symm)

/-- The three tables count a tuple fewer times than the field has elements. -/
theorem count_tables_lt : (tuples r neg (if rangeCheck = .lookup then
      seqLookupEntries .seq18 LOOKUP_CHUNK_BITS t.mult18 ++
        seqLookupEntries .seq11 (LIMB_BITS - LOOKUP_CHUNK_BITS) t.mult11 ++
        seqLookupEntries .seq6 (TOP_LIMB_BITS - LOOKUP_CHUNK_BITS) t.mult6
      else [])).count v < 2147483647 := by
  have h18 : (tuples r neg (seqLookupEntries .seq18 LOOKUP_CHUNK_BITS t.mult18)).count v <
      2147483647 := count_tuples_lt (pairwise_seqLookupEntries (by decide) _)
  have h11 : (tuples r neg (seqLookupEntries .seq11 (LIMB_BITS - LOOKUP_CHUNK_BITS)
      t.mult11)).count v < 2147483647 := count_tuples_lt (pairwise_seqLookupEntries (by decide) _)
  have h6 : (tuples r neg (seqLookupEntries .seq6 (TOP_LIMB_BITS - LOOKUP_CHUNK_BITS)
      t.mult6)).count v < 2147483647 := count_tuples_lt (pairwise_seqLookupEntries (by decide) _)
  have hother : ∀ (r' : RelationId), r' ≠ r → ∀ bits mult,
      tuples r neg (seqLookupEntries r' bits mult) = 0 := fun r' hne bits mult =>
    tuples_seqLookupEntries_of_ne (Or.inl hne) bits mult
  split
  · rw [tuples_append, tuples_append]
    cases r with
    | state =>
      rw [hother .seq18 (by decide), hother .seq11 (by decide), hother .seq6 (by decide), add_zero,
        add_zero, Multiset.count_zero]
      decide
    | seq18 =>
      rw [hother .seq11 (by decide), hother .seq6 (by decide), add_zero, add_zero]
      exact h18
    | seq11 =>
      rw [hother .seq18 (by decide), hother .seq6 (by decide), zero_add, add_zero]
      exact h11
    | seq6 =>
      rw [hother .seq18 (by decide), hother .seq11 (by decide), add_zero, zero_add]
      exact h6
  · simp [tuples]

variable {initial final : List (List M31)}

/-- **No tuple is counted as often as the field has elements**: the state tuples are no more than
    the rows and the cases, the lookups nine a row, a table has every value once. -/
theorem count_trace_lt (hc : t.ConstraintsHold rangeCheck) (hrows : 9 * t.rows.length < 2147483647)
    (hinit : t.rows.length + initial.length < 2147483647)
    (hfinal : t.rows.length + final.length < 2147483647) (r : RelationId) (neg : Bool)
    (v : List M31) :
    (tuples r neg (t.entries rangeCheck ++ publicEntries initial final)).count v < 2147483647 := by
  have hcard : ∀ neg, (tuples r neg (t.rows.flatMap fun row =>
      (evaluate rangeCheck (start row)).entries)).card ≤ rowTuples r * t.rows.length :=
    fun _ => card_rows_le fun row hrow => card_row_le hc hrow
  have hpart := (Multiset.count_le_card v (tuples r neg (t.rows.flatMap fun row =>
    (evaluate rangeCheck (start row)).entries))).trans (hcard neg)
  rw [tuples_append, Trace.entries, tuples_append, Multiset.count_add, Multiset.count_add]
  by_cases hr : r = .state
  · subst hr
    have htables : tuples .state neg (if rangeCheck = .lookup then
        seqLookupEntries .seq18 LOOKUP_CHUNK_BITS t.mult18 ++
          seqLookupEntries .seq11 (LIMB_BITS - LOOKUP_CHUNK_BITS) t.mult11 ++
          seqLookupEntries .seq6 (TOP_LIMB_BITS - LOOKUP_CHUNK_BITS) t.mult6
        else []) = 0 := by
      split
      · simp only [tuples_append, tuples_seqLookupEntries_of_ne (Or.inl (show RelationId.seq18 ≠ .state
          by decide)), tuples_seqLookupEntries_of_ne (Or.inl (show RelationId.seq11 ≠ .state by decide)),
          tuples_seqLookupEntries_of_ne (Or.inl (show RelationId.seq6 ≠ .state by decide)), add_zero]
      · rfl
    have hpublic : (tuples .state neg (publicEntries initial final)).count v ≤
        (if neg then initial else final).length := by
      rw [tuples_publicEntries_state]
      exact Multiset.count_le_card v _
    rw [htables, Multiset.count_zero]
    simp only [rowTuples, Nat.one_mul] at hpart
    cases neg <;> simp only [Bool.false_eq_true, if_true, if_false] at hpublic <;> omega
  · have hwidth : rowTuples r = 9 := by cases r <;> [exact absurd rfl hr; rfl; rfl; rfl]
    rw [hwidth] at hpart
    rw [tuples_publicEntries_of_ne hr, Multiset.count_zero, Nat.add_zero]
    cases neg with
    | true =>
      rw [rows_negated hr, Multiset.count_zero, Nat.zero_add]
      exact count_tables_lt
    | false =>
      have htables : tuples r false (if rangeCheck = .lookup then
          seqLookupEntries .seq18 LOOKUP_CHUNK_BITS t.mult18 ++
            seqLookupEntries .seq11 (LIMB_BITS - LOOKUP_CHUNK_BITS) t.mult11 ++
            seqLookupEntries .seq6 (TOP_LIMB_BITS - LOOKUP_CHUNK_BITS) t.mult6
          else []) = 0 := by
        split
        · simp only [tuples_append, tuples_seqLookupEntries_of_ne (Or.inr rfl), add_zero]
        · rfl
      rw [htables, Multiset.count_zero]
      omega

/-- **Entries that cancel are accepted.** -/
theorem accepted_of_netWeight {cases : List TestCase} {K : ℕ}
    (hc : t.ConstraintsHold rangeCheck) (hrows : 9 * t.rows.length < 2147483647)
    (hinit : t.rows.length + initial.length < 2147483647)
    (hfinal : t.rows.length + final.length < 2147483647)
    (hpub : publicBoundary K 0 cases = some (initial, final))
    (h : ∀ r v, netWeight r v (t.entries rangeCheck ++ publicEntries initial final) = 0) :
    Accepted rangeCheck cases K t := by
  have hbal : ∀ r, tuples r false (t.entries rangeCheck ++ publicEntries initial final) =
      tuples r true (t.entries rangeCheck ++ publicEntries initial final) := fun r =>
    tuples_eq_of_netWeight (h r) fun neg v => count_trace_lt hc hrows hinit hfinal r neg v
  have hlookup : ∀ r, r ≠ .state → Balances r (t.entries rangeCheck) 0 0 := by
    intro r hr
    have hr' := hbal r
    rw [tuples_append, tuples_append, tuples_publicEntries_of_ne hr,
      tuples_publicEntries_of_ne hr] at hr'
    exact hr'
  refine ⟨hc, ⟨initial, final, hpub, ?_⟩, hlookup _ (by decide), hlookup _ (by decide),
    hlookup _ (by decide)⟩
  have hs := hbal .state
  rw [tuples_append, tuples_append, tuples_publicEntries_state, tuples_publicEntries_state] at hs
  exact hs

end Balance

/-! ## 4. The verifier -/

section Widths

variable {rangeCheck : RangeCheckMode} {cases : List TestCase} {K : ℕ} {t : Trace}
  {initial final : List (List M31)}

theorem length_stateFromLimbs (s k : ℕ) (acc addend : List ℕ) :
    (stateFromLimbs s k acc addend).length = IADD_STATE_WIDTH := by
  rw [stateFromLimbs, List.length_map, List.length_range]

theorem publicBoundary_shape : ∀ {cases : List TestCase} {i : ℕ} {initial final : List (List M31)},
    publicBoundary K i cases = some (initial, final) →
      initial.length = cases.length ∧ final.length = cases.length ∧
        (∀ v ∈ initial, v.length = IADD_STATE_WIDTH) ∧ ∀ v ∈ final, v.length = IADD_STATE_WIDTH
  | [], _, _, _, h => by
      cases h
      simp
  | case :: cases, i, _, _, h => by
      simp only [publicBoundary, Option.bind_eq_bind, Option.bind_eq_some_iff, Option.pure_def,
        Option.some.injEq, Prod.mk.injEq] at h
      obtain ⟨v, _, ⟨initial, final⟩, hrec, rfl, rfl⟩ := h
      obtain ⟨hi, hf, hiw, hfw⟩ := publicBoundary_shape hrec
      refine ⟨congrArg (· + 1) hi, congrArg (· + 1) hf, ?_, ?_⟩
      · exact List.forall_mem_cons.mpr ⟨length_stateFromLimbs _ _ _ _, hiw⟩
      · exact List.forall_mem_cons.mpr ⟨length_stateFromLimbs _ _ _ _, hfw⟩

theorem lookupEntries_width {row : ℕ → M31} {isReal : M31} : ∀ {limbs : List M31}
    {limbIdx col : ℕ}, ∀ x ∈ lookupEntries row isReal limbIdx col limbs,
      x.values.length = relationWidth x.relation
  | [], _, _, _, h => absurd h List.not_mem_nil
  | _ :: limbs, limbIdx, col, x, h => by
      simp only [lookupEntries, List.mem_cons] at h
      rcases h with rfl | rfl | h
      · rfl
      · show 1 = relationWidth (highRelation limbIdx)
        unfold highRelation
        split <;> rfl
      · exact lookupEntries_width x h

/-- **Every entry has the width of its relation.** -/
theorem entries_width (rangeCheck : RangeCheckMode) (t : Trace) :
    ∀ x ∈ t.entries rangeCheck, x.values.length = relationWidth x.relation := by
  have hseq : ∀ (r : RelationId), relationWidth r = 1 → ∀ bits mult,
      ∀ x ∈ seqLookupEntries r bits mult, x.values.length = relationWidth x.relation := by
    intro r hr bits mult x hx
    obtain ⟨w, _, rfl⟩ := List.mem_map.mp hx
    exact hr.symm
  have hstate : ∀ row, (rowInput row).length = 20 ∧ (rowOutput row).length = 20 := by
    intro row
    simp [rowInput, rowOutput, rowAcc, rowAddend, rowNext, LIMBS]
  intro x hx
  rcases List.mem_append.mp hx with hx | hx
  · obtain ⟨row, _, hx⟩ := List.mem_flatMap.mp hx
    rw [evaluate_entries, List.mem_cons, List.mem_cons] at hx
    rcases hx with rfl | rfl | hx
    · exact (hstate row).1
    · exact (hstate row).2
    · split at hx
      · exact lookupEntries_width x hx
      · exact absurd hx List.not_mem_nil
  · split at hx
    · rcases List.mem_append.mp hx with hx | hx
      · rcases List.mem_append.mp hx with hx | hx
        · exact hseq _ rfl _ _ x hx
        · exact hseq _ rfl _ _ x hx
      · exact hseq _ rfl _ _ x hx
    · exact absurd hx List.not_mem_nil

theorem publicEntries_width (hpub : publicBoundary K 0 cases = some (initial, final)) :
    ∀ x ∈ publicEntries initial final, x.values.length = relationWidth x.relation := by
  obtain ⟨_, _, hi, hf⟩ := publicBoundary_shape hpub
  intro x hx
  rcases List.mem_append.mp hx with hx | hx
  · obtain ⟨v, hv, rfl⟩ := List.mem_map.mp hx
    exact hi v hv
  · obtain ⟨v, hv, rfl⟩ := List.mem_map.mp hx
    exact hf v hv

/-- Twenty entries a row, and the tables. -/
theorem length_entries_le (rangeCheck : RangeCheckMode) (t : Trace) :
    (t.entries rangeCheck).length ≤ 20 * t.rows.length + (2 ^ 18 + 2 ^ 11 + 2 ^ 6) := by
  have hbatches : 2 * mainInteractionBatches rangeCheck ≤ 20 := by
    unfold mainInteractionBatches
    split <;> decide
  have hrows : (t.rows.flatMap fun row => (evaluate rangeCheck (start row)).entries).length ≤
      20 * t.rows.length := by
    rw [List.length_flatMap, mul_comm]
    refine (List.sum_le_card_nsmul _ 20 fun n hn => ?_).trans_eq (by rw [List.length_map, smul_eq_mul])
    obtain ⟨row, _, rfl⟩ := List.mem_map.mp hn
    rw [length_entries]
    exact hbatches
  rw [Trace.entries, List.length_append]
  refine Nat.add_le_add hrows ?_
  split
  · simp only [List.length_append, seqLookupEntries, List.length_map, List.length_range]
    exact Nat.le_refl _
  · exact Nat.zero_le _

end Widths

section Sound

variable {F : Type} [Field F] [Fintype F] [Algebra M31 F]

/-- **A false claim passes for few draws.** -/
theorem card_passes_le {combine : RelationId → F × F → List M31 → F} (hcombine : Combines combine)
    {rangeCheck : RangeCheckMode} (hmode : rangeCheck ≠ .off) {cases : List TestCase} {K : ℕ}
    (hcases : cases.length < 2147483647) (hK : K < 2147483647) {t : Trace}
    (hc : t.ConstraintsHold rangeCheck) (hrows : 9 * t.rows.length < 2147483647)
    (hlen : t.rows.length + cases.length < 2147483647)
    (hfalse : ¬ ∀ case ∈ cases, lowRegisterFromStateHex case.yHex =
      some ((case.r0In + K * case.r1In) % 2 ^ 256)) :
    Fintype.card F * Nat.card {e : RelationId → F × F //
        VerifierPasses (fun r => combine r (e r)) rangeCheck cases K t} ≤
      21 * ((t.entries rangeCheck).length + 2 * cases.length) *
        Fintype.card (RelationId → F × F) := by
  classical
  by_cases hnone : ∃ e : RelationId → F × F,
      VerifierPasses (fun r => combine r (e r)) rangeCheck cases K t
  · obtain ⟨e₀, he₀⟩ := hnone
    obtain ⟨initial, final, hpub, _⟩ := passes_sum (by omega) (by omega) he₀
    obtain ⟨hilen, hflen, _, _⟩ := publicBoundary_shape hpub
    -- a trace with a false claim is not accepted, so its entries do not cancel
    obtain ⟨r, v, hne⟩ : ∃ r v,
        netWeight r v (t.entries rangeCheck ++ publicEntries initial final) ≠ 0 := by
      by_contra hall
      push Not at hall
      have haccepted := accepted_of_netWeight hc hrows (by omega) (by omega) hpub hall
      exact hfalse (final_registers hmode haccepted (by omega) hcases hK)
    have hwidth : ∀ x ∈ t.entries rangeCheck ++ publicEntries initial final,
        x.values.length = relationWidth x.relation := List.forall_mem_append.mpr
      ⟨entries_width rangeCheck t, publicEntries_width hpub⟩
    have hfew := card_cancel_le hcombine hwidth hne
    have hlength : (t.entries rangeCheck ++ publicEntries initial final).length =
        (t.entries rangeCheck).length + 2 * cases.length := by
      rw [List.length_append, publicEntries, List.length_append, List.length_map, List.length_map,
        hilen, hflen, two_mul]
    rw [hlength] at hfew
    refine (Nat.mul_le_mul_left _ ?_).trans hfew
    rw [Nat.card_eq_fintype_card, Fintype.card_subtype]
    refine card_le_card fun e he => ?_
    obtain ⟨initial', final', hpub', hsum⟩ := passes_sum (by omega) (by omega) (mem_filter.mp he).2
    obtain ⟨rfl, rfl⟩ := Prod.mk.inj (Option.some.inj (hpub.symm.trans hpub'))
    refine mem_filter.mpr ⟨mem_univ _, hsum.imp_left fun hpole => ?_⟩
    obtain ⟨x, hx, h0⟩ := hpole
    exact ⟨x, List.mem_append_left _ hx, h0⟩
  · have hempty : IsEmpty {e : RelationId → F × F //
        VerifierPasses (fun r => combine r (e r)) rangeCheck cases K t} :=
      ⟨fun e => hnone ⟨e.1, e.2⟩⟩
    rw [Nat.card_of_isEmpty, Nat.mul_zero]
    exact Nat.zero_le _

/-- A padded table nine times as long as which is below the field's size has `2 ^ 27` rows. -/
theorem paddedRows_le {n : ℕ} (h : 9 * paddedRows n < M31_MODULUS_U32) : paddedRows n ≤ 2 ^ 27 := by
  have hM : M31_MODULUS_U32 = 2147483647 := rfl
  unfold paddedRows nextPowerOfTwo at h ⊢
  refine max_le ?_ (by decide)
  have hle : 9 * 2 ^ Nat.clog 2 n < 2147483647 :=
    (Nat.mul_le_mul_left 9 (le_max_left _ _)).trans_lt (hM ▸ h)
  refine Nat.pow_le_pow_right (by decide) ?_
  by_contra hlt
  have : 2 ^ 28 ≤ 2 ^ Nat.clog 2 n := Nat.pow_le_pow_right (by decide) (by omega)
  omega

/-- **Soundness of the verifier's claimed sums.** A trace of the verifier's size that satisfies
    every constraint passes a false final register at no more draws of the challenges than
    `21 * terms` in as many as the field has elements; over the secure field these are fewer than
    one in `2 ^ 88`. -/
theorem verifier_sound (combine : RelationId → F × F → List M31 → F) (hcombine : Combines combine)
    (rangeCheck : RangeCheckMode) (hmode : rangeCheck ≠ .off) (cases : List TestCase) (K : ℕ)
    (hK : 1 ≤ K) (t : Trace) (hc : t.ConstraintsHold rangeCheck)
    (hrows : t.rows.length = paddedRows (cases.length * K))
    (hsize : 9 * paddedRows (cases.length * K) < M31_MODULUS_U32)
    (hfalse : ¬ ∀ case ∈ cases, lowRegisterFromStateHex case.yHex =
      some ((case.r0In + K * case.r1In) % 2 ^ 256)) :
    Fintype.card F * Nat.card {e : RelationId → F × F //
        VerifierPasses (fun r => combine r (e r)) rangeCheck cases K t} ≤
      21 * ((t.entries rangeCheck).length + 2 * cases.length) *
        Fintype.card (RelationId → F × F) ∧
    (Fintype.card F = M31_MODULUS_U32 ^ 4 →
      2 ^ 88 * Nat.card {e : RelationId → F × F //
        VerifierPasses (fun r => combine r (e r)) rangeCheck cases K t} ≤
          Fintype.card (RelationId → F × F)) := by
  have hM : M31_MODULUS_U32 = 2147483647 := rfl
  have hle := le_paddedRows (cases.length * K)
  have hmax := paddedRows_le hsize
  have hcases : cases.length ≤ cases.length * K := Nat.le_mul_of_pos_right _ hK
  have hKle : K ≤ cases.length * K := by
    refine Nat.le_mul_of_pos_left _ (Nat.pos_of_ne_zero fun h0 => hfalse ?_)
    rw [List.eq_nil_of_length_eq_zero h0]
    exact List.forall_mem_nil _
  have hfew := card_passes_le hcombine hmode (by omega) (by omega) hc (by omega) (by omega) hfalse
  refine ⟨hfew, fun hF => ?_⟩
  have hterms : 21 * ((t.entries rangeCheck).length + 2 * cases.length) ≤ 62014139712 := by
    have := length_entries_le rangeCheck t
    omega
  have hfield : 62014139712 * 2 ^ 88 ≤ Fintype.card F := by
    rw [hF, hM]
    decide
  refine Nat.le_of_mul_le_mul_left ?_ (show 0 < 62014139712 by decide)
  rw [← mul_assoc]
  exact (Nat.mul_le_mul_right _ hfield).trans (hfew.trans (Nat.mul_le_mul_right _ hterms))

end Sound

/-! ## 5. A wrong register -/

/-- A field of the secure field's size. -/
noncomputable abbrev SecureField : Type := GaloisField 2147483647 4

noncomputable instance fintype_secureField : Fintype SecureField := Fintype.ofFinite _

theorem card_secureField : Fintype.card SecureField = M31_MODULUS_U32 ^ 4 := by
  rw [← Nat.card_eq_fintype_card]
  exact GaloisField.card 2147483647 4 (by decide)

/-- The documented `combine`. -/
noncomputable def foldCombine (_ : RelationId) (e : SecureField × SecureField)
    (values : List M31) : SecureField :=
  foldTuple e.2 (values.map (algebraMap M31 SecureField)) - e.1

/-- The claim `5 + 2 * 7 = 20`. -/
def wrongCase : TestCase :=
  ⟨5, 7, "1400000000000000000000000000000000000000000000000000000000000000"⟩

/-- The rows of the true sums of two cases, then padding. -/
def wrongTrace : Trace where
  rows := (honestTrace 2 [sampleCase, wrongCase]).rows ++ List.replicate 60 fun _ => 0
  mult18 := 0
  mult11 := 0
  mult6 := 0

theorem wrongTrace_constraints : wrongTrace.ConstraintsHold .bits := by
  intro row hrow
  rcases List.mem_append.mp hrow with hrow | hrow
  · obtain ⟨p, _, hp⟩ := List.mem_flatMap.mp hrow
    obtain ⟨k, _, rfl⟩ := List.mem_map.mp hp
    exact honestRow_constraints
  · rw [List.eq_of_mem_replicate hrow]
    exact evaluate_padding rfl

/-- Two cases of two repetitions over the secure field, the second with a wrong register. -/
theorem verifier_sound_wrong :
    Fintype.card SecureField * Nat.card {e : RelationId → SecureField × SecureField //
        VerifierPasses (fun r => foldCombine r (e r)) .bits [sampleCase, wrongCase] 2 wrongTrace} ≤
      21 * ((wrongTrace.entries .bits).length + 2 * [sampleCase, wrongCase].length) *
        Fintype.card (RelationId → SecureField × SecureField) ∧
    2 ^ 88 * Nat.card {e : RelationId → SecureField × SecureField //
        VerifierPasses (fun r => foldCombine r (e r)) .bits [sampleCase, wrongCase] 2 wrongTrace} ≤
      Fintype.card (RelationId → SecureField × SecureField) := by
  have hclog : Nat.clog 2 4 = 2 := Nat.clog_pow 2 2 (by decide)
  have hpadded : paddedRows ([sampleCase, wrongCase].length * 2) = 64 := by
    simp [paddedRows, nextPowerOfTwo, hclog]
  have hwrong : lowRegisterFromStateHex wrongCase.yHex = some 20 := by
    simp [wrongCase, lowRegisterFromStateHex, hexDecode, hexDigit, fromBytesLe]
  have h := verifier_sound foldCombine (fun _ _ _ _ => rfl) .bits (by decide)
    [sampleCase, wrongCase] 2 (by decide) wrongTrace wrongTrace_constraints (by rw [hpadded]; rfl)
    (by rw [hpadded]; decide) (fun h => by
      have heq := hwrong.symm.trans (h wrongCase (List.mem_cons_of_mem _ List.mem_cons_self))
      simp [wrongCase] at heq)
  exact ⟨h.1, h.2 card_secureField⟩

end GroverTax.NativeAir
