/-
  File:      GroverTax/Lib/Sums.lean
  Subject:   Sums over records, over events and over their counters.

  * `sum_records` -- a sum over records of `n` entries is a sum over the entries;
  * `sum_map_eq_count` -- a sum over events is the sum over the values, each as often as it occurs;
  * `sum_map_flatMap` -- a sum over lists in a row is the sum of their sums;
  * `sum_map_range` -- a sum over a list is the sum over its places.
-/
import Mathlib.Algebra.BigOperators.Fin
import Mathlib.Algebra.BigOperators.Ring.Finset

namespace GroverTax.Lib

variable {M : Type*}

/-- Record `v` holds the entries `n * v, …, n * v + n - 1`. -/
theorem sum_records [AddCommMonoid M] (n : ℕ) (f : ℕ → M) : ∀ m : ℕ,
    ∑ v ∈ Finset.range m, ∑ l : Fin n, f (n * v + l) = ∑ i ∈ Finset.range (n * m), f i
  | 0 => by simp
  | m + 1 => by
      rw [Finset.sum_range_succ, sum_records n f m, Nat.mul_succ, Finset.sum_range_add,
        Finset.sum_range fun i => f (n * m + i)]

theorem sum_map_range [AddCommMonoid M] {α : Type*} (f : α → M) (d : α) : ∀ l : List α,
    (l.map f).sum = ∑ i ∈ Finset.range l.length, f (l.getD i d)
  | [] => rfl
  | a :: l => by
      rw [List.map_cons, List.sum_cons, List.length_cons, Finset.sum_range_succ',
        sum_map_range f d l, add_comm]
      rfl

theorem sum_map_flatMap [AddCommMonoid M] {α β : Type*} (f : α → M) (g : β → List α) :
    ∀ l : List β, ((l.flatMap g).map f).sum = (l.map fun b => ((g b).map f).sum).sum
  | [] => rfl
  | b :: l => by
      rw [List.flatMap_cons, List.map_append, List.sum_append, sum_map_flatMap f g l,
        List.map_cons, List.sum_cons]

/-- **Events are summed by value.** -/
theorem sum_map_eq_count [Semiring M] (f : ℕ → M) {n : ℕ} : ∀ {events : List ℕ},
    (∀ e ∈ events, e < n) →
      (events.map f).sum = ∑ v ∈ Finset.range n, (events.count v : M) * f v
  | [], _ => by simp
  | e :: events, h => by
      rw [List.forall_mem_cons] at h
      have hone : ∑ v ∈ Finset.range n, (if e = v then (1 : M) else 0) * f v = f e := by
        rw [Finset.sum_eq_single e]
        · simp
        · intro v _ hne
          rw [if_neg (Ne.symm hne), zero_mul]
        · exact fun hnot => absurd (Finset.mem_range.mpr h.1) hnot
      have hsplit : ∀ v, ((e :: events).count v : M) * f v =
          (events.count v : M) * f v + (if e = v then (1 : M) else 0) * f v := by
        intro v
        rw [List.count_cons, ← add_mul]
        by_cases hv : e = v <;> simp [hv]
      rw [List.map_cons, List.sum_cons, sum_map_eq_count f h.2, Finset.sum_congr rfl fun v _ => hsplit v,
        Finset.sum_add_distrib, hone, add_comm]

end GroverTax.Lib
