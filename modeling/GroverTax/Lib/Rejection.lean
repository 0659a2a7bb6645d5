/-
  File:      GroverTax/Lib/Rejection.lean
  Subject:   Drawing by rejection from a sequence of candidates.

  * `seek` -- the first accepted candidate from a place on, within a number of looks;
  * `seekMany` -- one search after another, each from behind the last find;
  * `seekMany_eq` -- **the finds are the accepted candidates in order**, none of them skipped;
  * `exists_seekMany` -- the searches end exactly when there are enough accepted candidates.
-/
import Mathlib.Data.Nat.Nth

namespace GroverTax.Lib

variable (p : ℕ → Prop) [DecidablePred p]

/-- The first accepted candidate from `i` on, if it is one of the next `fuel`. -/
def seek : ℕ → ℕ → Option ℕ
  | 0, _ => none
  | fuel + 1, i => if p i then some i else seek fuel (i + 1)

/-- `n` accepted candidates, one search after another. -/
def seekMany (fuel : ℕ) : ℕ → ℕ → Option (List ℕ)
  | 0, _ => some []
  | n + 1, i => do
      let j ← seek p fuel i
      let js ← seekMany fuel n (j + 1)
      return j :: js

variable {p} {fuel i j n : ℕ} {js : List ℕ}

/-- **What a search finds**: the next accepted candidate. -/
theorem seek_eq_some : ∀ {fuel i : ℕ}, seek p fuel i = some j ↔
    i ≤ j ∧ j < i + fuel ∧ p j ∧ ∀ k, i ≤ k → k < j → ¬ p k
  | 0, i => by
      refine iff_of_false (fun h => by cases h) fun h => ?_
      obtain ⟨h1, h2, -⟩ := h
      omega
  | fuel + 1, i => by
      unfold seek
      by_cases hi : p i
      · rw [if_pos hi, Option.some.injEq]
        constructor
        · rintro rfl
          exact ⟨le_refl _, by omega, hi, fun k h1 h2 => absurd h1 (by omega)⟩
        · intro h
          obtain ⟨hle, -, -, hmin⟩ := h
          by_contra hne
          exact hmin i (le_refl _) (by omega) hi
      · rw [if_neg hi, seek_eq_some]
        constructor
        · intro h
          obtain ⟨hle, hlt, hj, hmin⟩ := h
          refine ⟨by omega, by omega, hj, fun k h1 h2 => ?_⟩
          rcases Nat.eq_or_lt_of_le h1 with rfl | h1
          · exact hi
          · exact hmin k h1 h2
        · intro h
          obtain ⟨hle, hlt, hj, hmin⟩ := h
          have hne : i ≠ j := fun e => hi (e ▸ hj)
          exact ⟨by omega, by omega, hj, fun k h1 h2 => hmin k (by omega) h2⟩

/-- A stretch without an accepted candidate does not count. -/
theorem count_eq_of_none (hle : i ≤ j) (h : ∀ k, i ≤ k → k < j → ¬ p k) :
    Nat.count p j = Nat.count p i := by
  obtain ⟨d, rfl⟩ := Nat.exists_eq_add_of_le hle
  rw [Nat.count_add, Nat.add_eq_left, Nat.count_eq_card_filter_range, Finset.card_eq_zero,
    Finset.filter_eq_empty_iff]
  exact fun k hk => h _ (Nat.le_add_right _ _) (Nat.add_lt_add_left (Finset.mem_range.mp hk) _)

theorem count_of_seek (h : seek p fuel i = some j) :
    Nat.count p j = Nat.count p i ∧ Nat.count p (j + 1) = Nat.count p i + 1 := by
  obtain ⟨hle, -, hj, hmin⟩ := seek_eq_some.mp h
  have hcount := count_eq_of_none hle hmin
  exact ⟨hcount, by rw [Nat.count_succ, if_pos hj, hcount]⟩

theorem seekMany_none (h : seek p fuel i = none) : seekMany p fuel (n + 1) i = none := by
  rw [seekMany, h]
  rfl

theorem seekMany_some (h : seek p fuel i = some j) :
    seekMany p fuel (n + 1) i = (seekMany p fuel n (j + 1)).map (j :: ·) := by
  rw [seekMany, h, Option.bind_eq_bind, Option.bind_some]
  cases seekMany p fuel n (j + 1) <;> rfl

/-- **The finds are the accepted candidates in order.** -/
theorem seekMany_eq : ∀ {n i : ℕ} {js : List ℕ}, seekMany p fuel n i = some js →
    js = (List.range n).map fun k => Nat.nth p (Nat.count p i + k)
  | 0, _, _, h => by
      cases h
      rfl
  | n + 1, i, js, h => by
      obtain ⟨j, hj, h⟩ := Option.bind_eq_some_iff.mp h
      obtain ⟨rest, hrest, h⟩ := Option.bind_eq_some_iff.mp h
      obtain rfl := Option.some.inj h
      obtain ⟨hcount, hnext⟩ := count_of_seek hj
      obtain ⟨-, -, hpj, -⟩ := seek_eq_some.mp hj
      have hfirst : Nat.nth p (Nat.count p i + 0) = j := by
        rw [Nat.add_zero, ← hcount, Nat.nth_count hpj]
      rw [seekMany_eq hrest, hnext, List.range_succ_eq_map, List.map_cons, List.map_map, hfirst]
      refine congrArg (j :: ·) (List.map_congr_left fun k _ => ?_)
      rw [Function.comp_apply, Nat.succ_eq_add_one, Nat.add_assoc, Nat.add_comm 1 k]

/-- The finds are accepted. -/
theorem all_of_seekMany : ∀ {n i : ℕ} {js : List ℕ}, seekMany p fuel n i = some js → ∀ j ∈ js, p j
  | 0, _, _, h => by
      cases h
      exact List.forall_mem_nil _
  | n + 1, i, js, h => by
      obtain ⟨j, hj, h⟩ := Option.bind_eq_some_iff.mp h
      obtain ⟨rest, hrest, h⟩ := Option.bind_eq_some_iff.mp h
      obtain rfl := Option.some.inj h
      exact List.forall_mem_cons.mpr ⟨(seek_eq_some.mp hj).2.2.1, all_of_seekMany hrest⟩

/-- Enough accepted candidates below a bound, and enough looks to reach it. -/
theorem exists_seekMany_of_count {m : ℕ} : ∀ {n i : ℕ},
    Nat.count p i + n ≤ Nat.count p m → m ≤ i + fuel → ∃ js, seekMany p fuel n i = some js
  | 0, _, _, _ => ⟨[], rfl⟩
  | n + 1, i, hcount, hfuel => by
      obtain ⟨k, hk⟩ : ∃ k, i ≤ k ∧ k < m ∧ p k := by
        by_contra hnone
        rcases Nat.le_total i m with hle | hle
        · have := count_eq_of_none hle fun k h1 h2 hk => hnone ⟨k, h1, h2, hk⟩
          omega
        · have := Nat.count_monotone p hle
          omega
      classical
      obtain ⟨hik, hkm, hpk⟩ := hk
      have hex : ∃ k, i ≤ k ∧ p k := ⟨k, hik, hpk⟩
      obtain ⟨hij, hpj⟩ := Nat.find_spec hex
      have hjk : Nat.find hex ≤ k := Nat.find_min' hex ⟨hik, hpk⟩
      have hseek : seek p fuel i = some (Nat.find hex) :=
        seek_eq_some.mpr ⟨hij, by omega, hpj, fun k' h1 h2 hp' => Nat.find_min hex h2 ⟨h1, hp'⟩⟩
      obtain ⟨js, hjs⟩ := @exists_seekMany_of_count m n (Nat.find hex + 1)
        (by rw [(count_of_seek hseek).2]; omega) (by omega)
      exact ⟨Nat.find hex :: js, by rw [seekMany_some hseek, hjs, Option.map_some]⟩

/-- A bound below which there are as many accepted candidates as were found. -/
theorem count_of_seekMany : ∀ {n i : ℕ} {js : List ℕ}, seekMany p fuel n i = some js →
    ∃ m, Nat.count p i + n ≤ Nat.count p m
  | 0, i, _, _ => ⟨i, le_refl _⟩
  | n + 1, i, js, h => by
      obtain ⟨j, hj, h⟩ := Option.bind_eq_some_iff.mp h
      obtain ⟨rest, hrest, -⟩ := Option.bind_eq_some_iff.mp h
      obtain ⟨m, hm⟩ := count_of_seekMany hrest
      rw [(count_of_seek hj).2] at hm
      exact ⟨m, by omega⟩

/-- **The searches end exactly when there are enough accepted candidates.** -/
theorem exists_seekMany (n : ℕ) :
    (∃ fuel js, seekMany p fuel n 0 = some js) ↔ ∃ m, n ≤ Nat.count p m := by
  constructor
  · intro h
    obtain ⟨fuel, js, hjs⟩ := h
    obtain ⟨m, hm⟩ := count_of_seekMany hjs
    exact ⟨m, by rwa [Nat.count_zero, Nat.zero_add] at hm⟩
  · intro h
    obtain ⟨m, hm⟩ := h
    refine ⟨m, @exists_seekMany_of_count p _ m m n 0 ?_ (by omega)⟩
    rwa [Nat.count_zero, Nat.zero_add]

end GroverTax.Lib
