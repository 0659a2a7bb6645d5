/-
  File:      GroverTax/Lib/Balance.lean
  Subject:   Multiset balance as a proof rule: a table of edges whose consumed and produced
             points balance, up to the public start and end points.

  * `balance_closed`: a set of points that holds every start point and that no edge leaves
    holds every end point. No path is built and no cycle is excluded: outside the set the
    edges consume at least as many points as they produce.
  * `level_lt_of_balance`: where every edge raises a cyclic level by one, the start points sit
    at level `0` and the end points at level `k`, a table of fewer than `n` edges has no edge
    at a level from `k` on -- so no level is passed twice.
-/
import Mathlib.Data.ZMod.Basic
import Mathlib.Data.Multiset.Count
import Mathlib.Data.Multiset.Filter
import Mathlib.Algebra.Order.BigOperators.Group.Finset

namespace GroverTax.Lib

variable {R T : Type*}

/-! ## 1. Closed sets -/

/-- A filter is no larger than another it implies on the members. -/
theorem card_filter_le_of_imp {s : Multiset R} {p q : R → Prop} [DecidablePred p]
    [DecidablePred q] (h : ∀ r ∈ s, p r → q r) : (s.filter p).card ≤ (s.filter q).card := by
  have e : s.filter p = (s.filter q).filter p := by
    rw [Multiset.filter_filter]
    exact Multiset.filter_congr fun r hr => ⟨fun hp => ⟨hp, h r hr hp⟩, And.left⟩
  rw [e]
  exact Multiset.card_le_card (Multiset.filter_le _ _)

/-- **A closed set holds the end points.** -/
theorem balance_closed (rows : Multiset R) (inp out : R → T) (init fin : Multiset T)
    (H : T → Prop) (hb : rows.map inp + fin = rows.map out + init)
    (hinit : ∀ t ∈ init, H t) (hstep : ∀ r ∈ rows, H (inp r) → H (out r)) :
    ∀ t ∈ fin, H t := by
  classical
  -- an edge that ends outside `H` begins outside `H`
  have hle : (rows.filter fun r => ¬ H (out r)).card ≤ (rows.filter fun r => ¬ H (inp r)).card :=
    card_filter_le_of_imp fun r hr h hi => h (hstep r hr hi)
  have hin : init.filter (fun t => ¬ H t) = 0 :=
    Multiset.filter_eq_nil.mpr fun t ht h => h (hinit t ht)
  have hc := congrArg (fun m => (m.filter fun t => ¬ H t).card) hb
  simp only [Multiset.filter_add, Multiset.card_add, hin, Multiset.card_zero, Nat.add_zero,
    Multiset.filter_map, Multiset.card_map, Function.comp_def] at hc
  have hfin : fin.filter (fun t => ¬ H t) = 0 := by
    rw [← Multiset.card_eq_zero]
    omega
  exact fun t ht => Classical.not_not.mp (Multiset.filter_eq_nil.mp hfin t ht)

/-! ## 2. Levels -/

section Level

variable {n : ℕ} [NeZero n] (level : T → ZMod n)

omit [NeZero n] in
/-- The edges at a level, and those one level up, across the level of the end points. -/
theorem level_count_succ {rows : Multiset R} {inp out : R → T} {init fin : Multiset T}
    (hb : rows.map inp + fin = rows.map out + init)
    (hout : ∀ r ∈ rows, level (out r) = level (inp r) + 1)
    (hinit : ∀ t ∈ init, level t = 0) {k : ZMod n} (hfin : ∀ t ∈ fin, level t = k)
    (l : ZMod n) (hl : l + 1 ≠ 0) :
    (rows.map fun r => level (inp r)).count (l + 1) + (if l + 1 = k then fin.card else 0) =
      (rows.map fun r => level (inp r)).count l := by
  have e1 : fin.map level = Multiset.replicate fin.card k := by
    rw [Multiset.eq_replicate]
    exact ⟨Multiset.card_map _ _, fun b hb => by
      obtain ⟨t, ht, rfl⟩ := Multiset.mem_map.mp hb
      exact hfin t ht⟩
  have e2 : init.map level = Multiset.replicate init.card 0 := by
    rw [Multiset.eq_replicate]
    exact ⟨Multiset.card_map _ _, fun b hb => by
      obtain ⟨t, ht, rfl⟩ := Multiset.mem_map.mp hb
      exact hinit t ht⟩
  have e3 : rows.map (fun r => level (out r)) =
      (rows.map fun r => level (inp r)).map (· + 1) := by
    rw [Multiset.map_map]
    exact Multiset.map_congr rfl hout
  have hc := congrArg (fun m => (m.map level).count (l + 1)) hb
  simp only [Multiset.map_add, Multiset.map_map, Function.comp_def, Multiset.count_add, e1, e2,
    Multiset.count_replicate, e3] at hc
  have e4 : (rows.map fun r => level (inp r) + 1).count (l + 1) =
      (rows.map fun r => level (inp r)).count l := by
    rw [← Multiset.count_map_eq_count' (· + 1) _ (add_left_injective 1) l, Multiset.map_map]
    rfl
  rw [e4, if_neg (Ne.symm hl), Nat.add_zero] at hc
  rw [← hc]
  simp only [eq_comm]

/-- **No edge sits at a level from the end points' level on.** -/
theorem level_lt_of_balance {rows : Multiset R} {inp out : R → T} {init fin : Multiset T}
    (hb : rows.map inp + fin = rows.map out + init)
    (hout : ∀ r ∈ rows, level (out r) = level (inp r) + 1)
    (hinit : ∀ t ∈ init, level t = 0) {k : ZMod n} (hfin : ∀ t ∈ fin, level t = k)
    (hcard : rows.card < n) : ∀ r ∈ rows, (level (inp r)).val < k.val := by
  intro r hr
  by_contra hge
  -- the number of edges at level `j`, read over the natural numbers below `n`
  let N : ℕ → ℕ := fun j => (rows.map fun r => level (inp r)).count (j : ZMod n)
  have hN : ∀ j, j < n → N j + (if k.val ≤ j then fin.card else 0) =
      N 0 + (if k.val = 0 then fin.card else 0) := by
    intro j
    induction j with
    | zero => intro _; simp
    | succ j ih =>
      intro hj
      have hval : ((j + 1 : ℕ) : ZMod n).val = j + 1 := ZMod.val_cast_of_lt hj
      have hne : (j : ZMod n) + 1 ≠ 0 := by
        intro h0
        have h1 : ((j + 1 : ℕ) : ZMod n) = 0 := by push_cast; exact h0
        rw [h1, ZMod.val_zero] at hval
        omega
      have hs := level_count_succ level hb hout hinit hfin (j : ZMod n) hne
      have hk : ((j : ZMod n) + 1 = k) ↔ j + 1 = k.val := by
        constructor
        · rintro rfl
          rw [← hval]
          push_cast
          rfl
        · intro h
          rw [← ZMod.natCast_zmod_val k, ← h]
          push_cast
          rfl
      have hs' : N (j + 1) + (if j + 1 = k.val then fin.card else 0) = N j := by
        simp only [hk] at hs
        simpa [N] using hs
      have := ih (by omega)
      split_ifs at * <;> omega
  have hpos : ∀ l : ZMod n, 1 ≤ (rows.map fun r => level (inp r)).count l := by
    intro l
    have h1 : 1 ≤ N (level (inp r)).val := by
      simp only [N, ZMod.natCast_zmod_val]
      exact Multiset.one_le_count_iff_mem.mpr (Multiset.mem_map.mpr ⟨r, hr, rfl⟩)
    have h2 := hN _ (ZMod.val_lt (level (inp r)))
    have h3 := hN _ (ZMod.val_lt l)
    have h4 : N l.val = (rows.map fun r => level (inp r)).count l := by simp [N]
    rw [← h4]
    rw [if_pos (by omega)] at h2
    split_ifs at h2 h3 <;> omega
  have hsum := Multiset.sum_count_eq_card (s := Finset.univ)
    (m := rows.map fun r => level (inp r)) fun a _ => Finset.mem_univ a
  have hle : Finset.univ.card (α := ZMod n) ≤
      ∑ l : ZMod n, (rows.map fun r => level (inp r)).count l := by
    rw [Finset.card_eq_sum_ones]
    exact Finset.sum_le_sum fun l _ => hpos l
  rw [hsum, Multiset.card_map, Finset.card_univ, ZMod.card] at hle
  omega

end Level

end GroverTax.Lib
