/-
  File:      GroverTax/Lib/LogUp.lean
  Subject:   The logarithmic-derivative argument: signed tuples over a finite field, and how often
             their sum of fractions takes one value at random challenges.

  A challenge is a pair `(z, α)`. A tuple is folded with the powers of `α`, and a term of weight
  `m` becomes the fraction `m / (fold - z)`.

  * `card_foldTuple_eq_le` -- two tuples of one length fold alike for few `α`;
  * `card_fractions_eq_le` -- where the weights at some pole do not cancel, few `z` give the sum of
    the fractions a value that was fixed before;
  * **`card_challenges_le`** -- **both together**: tuples whose weights do not cancel have a given
    sum at few challenges;
  * `card_mul_card_filter` -- the challenges of several relations, drawn one apart from the other.
-/
import Mathlib.Algebra.Polynomial.Roots
import Mathlib.Algebra.BigOperators.Field
import Mathlib.Data.List.GetD

namespace GroverTax.Lib

open Finset Polynomial

variable {F : Type*} [Field F]

/-! ## 1. Tuples -/

/-- A tuple, folded with the powers of `α`. -/
def foldTuple (α : F) : List F → F
  | [] => 0
  | v :: t => v + α * foldTuple α t

/-- The tuple as a polynomial in `α`. -/
noncomputable def tuplePoly : List F → F[X]
  | [] => 0
  | v :: t => C v + X * tuplePoly t

theorem eval_tuplePoly (α : F) : ∀ t : List F, (tuplePoly t).eval α = foldTuple α t
  | [] => eval_zero
  | v :: t => by
      rw [tuplePoly, eval_add, eval_C, eval_mul, eval_X, eval_tuplePoly α t, foldTuple]

theorem coeff_tuplePoly : ∀ (t : List F) (n : ℕ), (tuplePoly t).coeff n = t.getD n 0
  | [], n => by simp [tuplePoly]
  | v :: t, 0 => by simp [tuplePoly]
  | v :: t, n + 1 => by
      rw [tuplePoly, coeff_add, coeff_C_succ, coeff_X_mul, coeff_tuplePoly t n, zero_add,
        List.getD_cons_succ]

theorem tuplePoly_inj {s t : List F} (hlen : s.length = t.length)
    (h : tuplePoly s = tuplePoly t) : s = t := by
  refine List.ext_getElem hlen fun n hs ht => ?_
  have hn := congrArg (fun p => coeff p n) h
  simp only [coeff_tuplePoly] at hn
  rwa [List.getD_eq_getElem _ _ hs, List.getD_eq_getElem _ _ ht] at hn

theorem natDegree_tuplePoly_le (t : List F) : (tuplePoly t).natDegree ≤ t.length - 1 := by
  refine natDegree_le_iff_coeff_eq_zero.mpr fun n hn => ?_
  rw [coeff_tuplePoly, List.getD_eq_default _ _ (by omega)]

section Finite

variable [Fintype F] [DecidableEq F]

/-- **Different tuples fold alike for few `α`.** -/
theorem card_foldTuple_eq_le {s t : List F} {w : ℕ} (hs : s.length = w) (ht : t.length = w)
    (hne : s ≠ t) : #{α | foldTuple α s = foldTuple α t} ≤ w - 1 := by
  have hp : tuplePoly s - tuplePoly t ≠ 0 := fun h =>
    hne (tuplePoly_inj (hs.trans ht.symm) (sub_eq_zero.mp h))
  have hsub : ({α | foldTuple α s = foldTuple α t} : Finset F) ⊆
      (tuplePoly s - tuplePoly t).roots.toFinset := by
    intro α hα
    rw [Multiset.mem_toFinset, mem_roots hp, IsRoot, eval_sub, eval_tuplePoly, eval_tuplePoly]
    exact sub_eq_zero.mpr (mem_filter.mp hα).2
  calc #{α | foldTuple α s = foldTuple α t}
      ≤ #(tuplePoly s - tuplePoly t).roots.toFinset := card_le_card hsub
    _ ≤ (tuplePoly s - tuplePoly t).natDegree :=
        (Multiset.toFinset_card_le _).trans (card_roots' _)
    _ ≤ max (tuplePoly s).natDegree (tuplePoly t).natDegree := natDegree_sub_le _ _
    _ ≤ w - 1 := max_le (hs ▸ natDegree_tuplePoly_le s) (ht ▸ natDegree_tuplePoly_le t)

end Finite

/-! ## 2. Fractions in one variable -/

section Fractions

variable {ι : Type*} [DecidableEq F] (s : Finset ι) (m a : ι → F)

/-- The weight at a pole. -/
def poleWeight (b : F) : F := ∑ i ∈ s with a i = b, m i

/-- The product of the factors of the poles. -/
noncomputable def poleFactors (A : Finset F) : F[X] := ∏ d ∈ A, (C d - X)

omit [DecidableEq F] in
theorem eval_poleFactors (A : Finset F) (z : F) : (poleFactors A).eval z = ∏ d ∈ A, (d - z) := by
  rw [poleFactors, eval_prod]
  exact prod_congr rfl fun d _ => by rw [eval_sub, eval_C, eval_X]

omit [DecidableEq F] in
theorem natDegree_poleFactors_le (A : Finset F) : (poleFactors A).natDegree ≤ #A := by
  refine (natDegree_prod_le _ _).trans ((sum_le_card_nsmul _ _ 1 fun d _ => ?_).trans_eq ?_)
  · exact (natDegree_sub_le _ _).trans (max_le ((natDegree_C d).trans_le zero_le_one) natDegree_X_le)
  · rw [smul_eq_mul, mul_one]

/-- The fractions over the product of the poles, less `c` times it. -/
noncomputable def numerator (c : F) : F[X] :=
  ∑ b ∈ s.image a, C (poleWeight s m a b) * poleFactors ((s.image a).erase b) -
    C c * poleFactors (s.image a)

theorem natDegree_numerator_le (c : F) : (numerator s m a c).natDegree ≤ #s := by
  have himage : #(s.image a) ≤ #s := card_image_le
  refine (natDegree_sub_le _ _).trans (max_le (natDegree_sum_le_of_forall_le _ _ fun b _ => ?_) ?_)
  · refine (natDegree_C_mul_le _ _).trans ((natDegree_poleFactors_le _).trans ?_)
    exact (card_le_card (erase_subset _ _)).trans himage
  · exact (natDegree_C_mul_le _ _).trans ((natDegree_poleFactors_le _).trans himage)

/-- At a pole the numerator is the pole's weight, up to a factor that is not zero. -/
theorem eval_numerator_pole {b : F} (hb : b ∈ s.image a) (c : F) : (numerator s m a c).eval b =
    poleWeight s m a b * ∏ d ∈ (s.image a).erase b, (d - b) := by
  have hzero : ∏ d ∈ s.image a, (d - b) = 0 := prod_eq_zero hb (sub_self b)
  rw [numerator, eval_sub, eval_mul, eval_poleFactors, hzero, mul_zero, sub_zero, eval_finsetSum]
  simp only [eval_mul, eval_C, eval_poleFactors]
  refine sum_eq_single b (fun d _ hd => ?_) fun h => absurd hb h
  have herase : ∏ e ∈ (s.image a).erase d, (e - b) = 0 :=
    prod_eq_zero (mem_erase.mpr ⟨hd.symm, hb⟩) (sub_self b)
  rw [herase, mul_zero]

/-- Away from the poles the numerator vanishes where the sum is `c`. -/
theorem eval_numerator_of_sum {z c : F} (hz : ∀ i ∈ s, a i ≠ z)
    (h : ∑ i ∈ s, m i / (a i - z) = c) : (numerator s m a c).eval z = 0 := by
  have hne : ∀ b ∈ s.image a, b - z ≠ 0 := by
    intro b hb
    obtain ⟨i, hi, rfl⟩ := mem_image.mp hb
    exact sub_ne_zero.mpr (hz i hi)
  -- the sum, pole by pole
  have hsum : ∑ b ∈ s.image a, poleWeight s m a b / (b - z) = c := by
    rw [← h, ← sum_fiberwise_of_maps_to fun i hi => mem_image_of_mem a hi]
    refine sum_congr rfl fun b _ => ?_
    rw [poleWeight, sum_div]
    exact sum_congr rfl fun i hi => by rw [(mem_filter.mp hi).2]
  rw [numerator, eval_sub, eval_mul, eval_C, eval_finsetSum, eval_poleFactors, ← hsum, sum_mul,
    sub_eq_zero]
  refine sum_congr rfl fun b hb => ?_
  rw [eval_mul, eval_C, eval_poleFactors, ← mul_prod_erase _ _ hb, ← mul_assoc,
    div_mul_cancel₀ _ (hne b hb)]

/-- **A fixed value is taken at few points**, when the weights at one pole do not cancel. -/
theorem card_fractions_eq_le [Fintype F] {b : F} (hb : poleWeight s m a b ≠ 0) (c : F) :
    #{z | (∀ i ∈ s, a i ≠ z) ∧ ∑ i ∈ s, m i / (a i - z) = c} ≤ #s := by
  have hmem : b ∈ s.image a := by
    obtain ⟨i, hi, _⟩ := exists_ne_zero_of_sum_ne_zero hb
    exact mem_image.mpr ⟨i, (mem_filter.mp hi).1, (mem_filter.mp hi).2⟩
  have hp : numerator s m a c ≠ 0 := by
    intro h
    have he := eval_numerator_pole s m a hmem c
    rw [h, eval_zero, eq_comm, mul_eq_zero] at he
    refine he.elim hb fun hprod => ?_
    obtain ⟨d, hd, hd0⟩ := prod_eq_zero_iff.mp hprod
    exact (mem_erase.mp hd).1 (sub_eq_zero.mp hd0)
  have hsub : ({z | (∀ i ∈ s, a i ≠ z) ∧ ∑ i ∈ s, m i / (a i - z) = c} : Finset F) ⊆
      (numerator s m a c).roots.toFinset := by
    intro z hz
    obtain ⟨_, hz, hc⟩ := mem_filter.mp hz
    rw [Multiset.mem_toFinset, mem_roots hp]
    exact eval_numerator_of_sum s m a hz hc
  exact (card_le_card hsub).trans ((Multiset.toFinset_card_le _).trans
    ((card_roots' _).trans (natDegree_numerator_le s m a c)))

end Fractions

/-! ## 3. Both challenges -/

section Challenges

variable [Fintype F] [DecidableEq F] {ι : Type*}

omit [Field F] [DecidableEq F] in
/-- The pairs with a property, counted by the second component. -/
theorem card_pairs (P : F × F → Prop) [DecidablePred P] :
    #{e | P e} = ∑ α, #{z | P (z, α)} := by
  simp only [card_filter]
  exact Fintype.sum_prod_type_right _

/-- A tuple is a pole at one `z` for every `α`. -/
theorem card_pole (t : List F) :
    #{e : F × F | foldTuple e.2 t = e.1} = Fintype.card F := by
  have hone : ∀ α : F, #{z | foldTuple α t = z} = 1 := by
    intro α
    rw [filter_eq univ (foldTuple α t), if_pos (mem_univ _), card_singleton]
  rw [card_pairs]
  simp only [hone]
  rw [sum_const, smul_eq_mul, mul_one, card_univ]

variable (s : Finset ι) (m : ι → F) (t : ι → List F)

omit [Fintype F] in
/-- Where no other tuple folds like `t₀`, the weight at its pole is its own. -/
theorem poleWeight_foldTuple {t₀ : List F} {α : F}
    (h : ∀ i ∈ s, t i ≠ t₀ → foldTuple α (t i) ≠ foldTuple α t₀) :
    poleWeight s m (fun i => foldTuple α (t i)) (foldTuple α t₀) = ∑ i ∈ s with t i = t₀, m i := by
  refine sum_congr (filter_congr fun i hi => ⟨fun he => ?_, fun he =>
    congrArg (foldTuple α) he⟩) fun _ _ => rfl
  by_contra hne
  exact h i hi hne he

/-- **Tuples whose weights do not cancel** have a given sum at few challenges. -/
theorem card_challenges_le {w : ℕ} (hw : 0 < w) (hlen : ∀ i ∈ s, (t i).length = w) {t₀ : List F}
    (hlen₀ : t₀.length = w) (h : ∑ i ∈ s with t i = t₀, m i ≠ 0) (c : F) (P : F × F → Prop)
    [DecidablePred P] (hP : ∀ e, P e → (∀ i ∈ s, foldTuple e.2 (t i) ≠ e.1) ∧
      ∑ i ∈ s, m i / (foldTuple e.2 (t i) - e.1) = c) :
    #{e | P e} ≤ w * #s * Fintype.card F := by
  -- the `α` for which another tuple folds like `t₀`
  set B : Finset F := s.biUnion fun i =>
    if t i = t₀ then ∅ else ({α | foldTuple α (t i) = foldTuple α t₀} : Finset F) with hB
  have hBcard : #B ≤ #s * (w - 1) := by
    refine card_biUnion_le_card_mul _ _ _ fun i hi => ?_
    by_cases he : t i = t₀
    · rw [if_pos he, card_empty]
      exact Nat.zero_le _
    · rw [if_neg he]
      exact card_foldTuple_eq_le (hlen i hi) hlen₀ he
  have hgood : ∀ α, #{z | P (z, α)} ≤ (if α ∈ B then Fintype.card F else 0) + #s := by
    intro α
    by_cases hα : α ∈ B
    · rw [if_pos hα]
      exact (card_le_univ _).trans (Nat.le_add_right _ _)
    · rw [if_neg hα, zero_add]
      have hweight : poleWeight s m (fun i => foldTuple α (t i)) (foldTuple α t₀) ≠ 0 := by
        rw [poleWeight_foldTuple s m t fun i hi hne he => hα ?_]
        · exact h
        · rw [hB]
          refine mem_biUnion.mpr ⟨i, hi, ?_⟩
          rw [if_neg hne]
          exact mem_filter.mpr ⟨mem_univ _, he⟩
      refine (card_le_card fun z hz => ?_).trans (card_fractions_eq_le s m _ hweight c)
      exact mem_filter.mpr ⟨mem_univ _, hP _ (mem_filter.mp hz).2⟩
  calc #{e | P e}
      = ∑ α, #{z | P (z, α)} := card_pairs P
    _ ≤ ∑ α, ((if α ∈ B then Fintype.card F else 0) + #s) := sum_le_sum fun α _ => hgood α
    _ = #B * Fintype.card F + Fintype.card F * #s := by
        rw [sum_add_distrib, sum_ite_mem, univ_inter, sum_const, sum_const, smul_eq_mul,
          smul_eq_mul, card_univ]
    _ ≤ #s * (w - 1) * Fintype.card F + Fintype.card F * #s :=
        Nat.add_le_add_right (Nat.mul_le_mul_right _ hBcard) _
    _ = w * #s * Fintype.card F := by
        obtain ⟨v, rfl⟩ := Nat.exists_eq_add_of_le' hw
        rw [Nat.add_sub_cancel]
        ring

end Challenges

/-! ## 4. Several relations -/

section Relations

variable {R A : Type*} [Fintype R] [DecidableEq R] [Fintype A]

/-- The draws with a property, counted by what one of their components may be. -/
theorem card_mul_card_filter (r : R) (P : (R → A) → Prop) [DecidablePred P] :
    Fintype.card A * #{e | P e} = ∑ e, #{p | P (Function.update e r p)} := by
  -- a draw and a component, exchanged
  let swap : (R → A) × A → (R → A) × A := fun x => (Function.update x.1 r x.2, x.1 r)
  have hswap : Function.Involutive swap := by
    rintro ⟨e, p⟩
    simp [swap]
  calc Fintype.card A * #{e | P e}
      = ∑ x : (R → A) × A, if P x.1 then 1 else 0 := by
        rw [Fintype.sum_prod_type, card_filter, mul_sum]
        refine sum_congr rfl fun e _ => ?_
        show _ = ∑ _p : A, if P e then 1 else 0
        rw [sum_const, card_univ, smul_eq_mul]
    _ = ∑ x : (R → A) × A, if P (swap x).1 then 1 else 0 :=
        (Equiv.sum_comp hswap.toPerm fun x => if P x.1 then 1 else 0).symm
    _ = ∑ e, #{p | P (Function.update e r p)} := by
        rw [Fintype.sum_prod_type]
        exact sum_congr rfl fun e _ => (card_filter _ _).symm

/-- **A bound for every draw of the others is a bound for all draws.** -/
theorem card_filter_le_of_update (r : R) (P : (R → A) → Prop) [DecidablePred P] {b : ℕ}
    (h : ∀ e, #{p | P (Function.update e r p)} ≤ b) :
    Fintype.card A * #{e | P e} ≤ b * Fintype.card (R → A) := by
  rw [card_mul_card_filter r P, mul_comm b]
  exact sum_le_card_nsmul _ _ _ fun e _ => h e

end Relations

end GroverTax.Lib
