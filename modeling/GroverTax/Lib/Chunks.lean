/-
  File:      GroverTax/Lib/Chunks.lean
  Subject:   A list cut into records of `k` elements.

  * `flatMap_chunk` -- the records in a row are the list;
  * `chunk_flatMap` -- record `i` of records in a row is the `i`th;
  * `getD_chunk` -- an element of a record is an element of the list.
-/
import Mathlib.Data.List.GetD
import Mathlib.Algebra.Ring.Nat

namespace GroverTax.Lib

variable {α β : Type} {k i n : ℕ}

/-- Record `i` of a list. -/
def chunk (k : ℕ) (l : List α) (i : ℕ) : List α := (l.drop (k * i)).take k

theorem flatMap_chunk (k : ℕ) (l : List α) :
    ∀ n, (List.range n).flatMap (chunk k l) = l.take (k * n)
  | 0 => by simp
  | n + 1 => by
      rw [List.range_succ, List.flatMap_append, flatMap_chunk k l n, List.flatMap_singleton,
        Nat.mul_succ, List.take_add]
      rfl

theorem length_flatMap_const {f : α → List β} {l : List α} (h : ∀ a ∈ l, (f a).length = k) :
    (l.flatMap f).length = k * l.length := by
  rw [List.length_flatMap, List.map_congr_left h, List.map_const', List.sum_replicate_nat,
    Nat.mul_comm]

theorem length_flatMap_le {f : α → List β} : ∀ {l : List α}, (∀ a ∈ l, (f a).length ≤ k) →
    (l.flatMap f).length ≤ k * l.length
  | [], _ => by simp
  | a :: l, h => by
      rw [List.forall_mem_cons] at h
      have ih := length_flatMap_le h.2
      rw [List.flatMap_cons, List.length_append, List.length_cons, Nat.mul_succ]
      omega

theorem drop_flatMap {f : α → List β} : ∀ {l : List α} {i : ℕ},
    (∀ a ∈ l, (f a).length = k) → (l.flatMap f).drop (k * i) = (l.drop i).flatMap f
  | l, 0, _ => by simp
  | [], i + 1, _ => by simp
  | a :: l, i + 1, h => by
      obtain ⟨ha, hl⟩ := List.forall_mem_cons.mp h
      rw [List.flatMap_cons, Nat.mul_succ, Nat.add_comm, ← List.drop_drop, ← ha, List.drop_left,
        ha, drop_flatMap hl, List.drop_succ_cons]

theorem chunk_flatMap {f : α → List β} {l : List α} (h : ∀ a ∈ l, (f a).length = k)
    (hi : i < l.length) : chunk k (l.flatMap f) i = f (l.get ⟨i, hi⟩) := by
  rw [chunk, drop_flatMap h, List.drop_eq_getElem_cons hi, List.flatMap_cons,
    ← h _ (List.getElem_mem hi), List.take_left]
  rfl

theorem getD_chunk {l : List α} {j : ℕ} (hj : j < k) (d : α) :
    (chunk k l i).getD j d = l.getD (k * i + j) d := by
  rw [chunk, List.getD_eq_getElem?_getD, List.getElem?_take_of_lt hj, List.getElem?_drop,
    List.getD_eq_getElem?_getD]

theorem length_chunk {l : List α} (h : k * i + k ≤ l.length) : (chunk k l i).length = k := by
  rw [chunk, List.length_take, List.length_drop]
  omega

theorem getD_replicate_self (n i : ℕ) (d : α) : (List.replicate n d).getD i d = d := by
  rw [List.getD_eq_getElem?_getD]
  exact List.getElem?_getD_replicate_default_eq ..

/-- Lists that read alike below their common length are equal. -/
theorem ext_getD {l l' : List α} (d : α) (hlen : l.length = l'.length)
    (h : ∀ i < l.length, l.getD i d = l'.getD i d) : l = l' := by
  refine List.ext_getElem hlen fun i h1 h2 => ?_
  have := h i h1
  rwa [List.getD_eq_getElem _ _ h1, List.getD_eq_getElem _ _ h2] at this

/-- An element of records in a row is an element of its record. -/
theorem getD_flatMap {f : α → List β} {l : List α} (h : ∀ a ∈ l, (f a).length = k) {j : ℕ}
    (hi : i < l.length) (hj : j < k) (d : β) :
    (l.flatMap f).getD (k * i + j) d = (f (l.get ⟨i, hi⟩)).getD j d := by
  rw [← getD_chunk hj, chunk_flatMap h hi]

end GroverTax.Lib
