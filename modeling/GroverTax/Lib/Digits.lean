/-
  File:      GroverTax/Lib/Digits.lean
  Subject:   Numbers in a mixed binary radix: digit `i` is `w i` bits wide and starts at bit
             `off i`.

  * `digit_inj`: the digits below place `k` determine the number modulo `2 ^ off k`;
  * `carryInto`, `digit_add_carry`: the schoolbook addition, one place at a time;
  * `digit_of_carry_eq`: a digit and a carry that satisfy the place's equation ARE the digit of
    the sum and the carry out of the place. This is what a verifier that sees only the place
    equations may conclude.
-/
import Mathlib.Data.Nat.ModEq
import Mathlib.Tactic.Ring

namespace GroverTax.Lib

/-- Digit `i` of `v`: the `w i` bits from bit `off i` on. -/
def digit (off w : ℕ → ℕ) (v i : ℕ) : ℕ := v / 2 ^ off i % 2 ^ w i

/-- The carry that reaches place `i` in the addition of `a` and `b`. -/
def carryInto (off : ℕ → ℕ) (a b i : ℕ) : ℕ := (a % 2 ^ off i + b % 2 ^ off i) / 2 ^ off i

section Digits

variable {off w : ℕ → ℕ}

theorem digit_lt (v i : ℕ) : digit off w v i < 2 ^ w i := Nat.mod_lt _ (Nat.two_pow_pos _)

/-- A number's residue at a place, from the residue one place below and the digit. -/
theorem mod_off_succ (hoff : ∀ i, off (i + 1) = off i + w i) (v i : ℕ) :
    v % 2 ^ off (i + 1) = v % 2 ^ off i + 2 ^ off i * digit off w v i := by
  rw [hoff, pow_add, Nat.mod_mul]
  rfl

/-- **The digits below a place determine the residue there.** -/
theorem digit_inj (h0 : off 0 = 0) (hoff : ∀ i, off (i + 1) = off i + w i) {a b : ℕ} :
    ∀ k, (∀ i, i < k → digit off w a i = digit off w b i) → a % 2 ^ off k = b % 2 ^ off k
  | 0, _ => by rw [h0, pow_zero, Nat.mod_one, Nat.mod_one]
  | k + 1, h => by
      rw [mod_off_succ hoff, mod_off_succ hoff, h k (Nat.lt_succ_self k),
        digit_inj h0 hoff k fun i hi => h i (Nat.lt_succ_of_lt hi)]

/-- The digits read the number modulo the place they stop at. -/
theorem digit_mod_of_lt (hoff : ∀ i, off (i + 1) = off i + w i) (v : ℕ) {i k : ℕ} (h : i < k) :
    digit off w (v % 2 ^ off k) i = digit off w v i := by
  have hle : off (i + 1) ≤ off k := by
    induction h with
    | refl => exact Nat.le_refl _
    | step _ ih => exact ih.trans (by rw [hoff]; exact Nat.le_add_right _ _)
  obtain ⟨d, hd⟩ := Nat.le.dest hle
  unfold digit
  rw [← hd, hoff, pow_add, pow_add, Nat.mul_assoc, Nat.mod_mul_right_div_self,
    Nat.mod_mul_right_mod]

/-! ## Addition -/

@[simp] theorem carryInto_zero (h0 : off 0 = 0) (a b : ℕ) : carryInto off a b 0 = 0 := by
  simp [carryInto, h0, Nat.mod_one]

theorem carryInto_le_one (a b i : ℕ) : carryInto off a b i ≤ 1 := by
  have ha : a % 2 ^ off i < 2 ^ off i := Nat.mod_lt _ (Nat.two_pow_pos _)
  have hb : b % 2 ^ off i < 2 ^ off i := Nat.mod_lt _ (Nat.two_pow_pos _)
  unfold carryInto
  exact Nat.le_of_lt_succ (Nat.div_lt_of_lt_mul (by omega))

/-- The carry out of a place is the overflow of its digit sum. -/
theorem carryInto_succ (hoff : ∀ i, off (i + 1) = off i + w i) (a b i : ℕ) :
    carryInto off a b (i + 1) =
      (digit off w a i + digit off w b i + carryInto off a b i) / 2 ^ w i := by
  have e : a % 2 ^ off (i + 1) + b % 2 ^ off (i + 1) =
      (a % 2 ^ off i + b % 2 ^ off i) +
        2 ^ off i * (digit off w a i + digit off w b i) := by
    rw [mod_off_succ hoff, mod_off_succ hoff]
    ring
  show (a % 2 ^ off (i + 1) + b % 2 ^ off (i + 1)) / 2 ^ off (i + 1) = _
  rw [e, hoff, pow_add, ← Nat.div_div_eq_div_mul,
    Nat.add_mul_div_left _ _ (Nat.two_pow_pos _), Nat.add_comm (_ / 2 ^ off i)]
  rfl

/-- The digit of a sum is the digit sum, with the carry, below the base. -/
theorem digit_add (a b i : ℕ) :
    digit off w (a + b) i =
      (digit off w a i + digit off w b i + carryInto off a b i) % 2 ^ w i := by
  have e : (a + b) / 2 ^ off i = a / 2 ^ off i + b / 2 ^ off i + carryInto off a b i := by
    unfold carryInto
    conv_lhs => rw [← Nat.div_add_mod a (2 ^ off i), ← Nat.div_add_mod b (2 ^ off i)]
    rw [show 2 ^ off i * (a / 2 ^ off i) + a % 2 ^ off i +
        (2 ^ off i * (b / 2 ^ off i) + b % 2 ^ off i) =
        (a % 2 ^ off i + b % 2 ^ off i) + 2 ^ off i * (a / 2 ^ off i + b / 2 ^ off i) by ring,
      Nat.add_mul_div_left _ _ (Nat.two_pow_pos _), Nat.add_comm]
  unfold digit
  rw [e]
  simp [Nat.add_mod]

/-- **The schoolbook step**: digits and carry in make the sum's digit and the carry out. -/
theorem digit_add_carry (hoff : ∀ i, off (i + 1) = off i + w i) (a b i : ℕ) :
    digit off w a i + digit off w b i + carryInto off a b i =
      digit off w (a + b) i + carryInto off a b (i + 1) * 2 ^ w i := by
  rw [digit_add, carryInto_succ hoff, Nat.mul_comm, Nat.mod_add_div]

/-- **A digit and a carry that satisfy the place's equation are the sum's.** -/
theorem digit_of_carry_eq (hoff : ∀ i, off (i + 1) = off i + w i) {a b i n c : ℕ}
    (hn : n < 2 ^ w i)
    (h : digit off w a i + digit off w b i + carryInto off a b i = n + c * 2 ^ w i) :
    n = digit off w (a + b) i ∧ c = carryInto off a b (i + 1) := by
  have hpos := Nat.two_pow_pos (w i)
  refine ⟨?_, ?_⟩
  · rw [digit_add, h, Nat.add_mul_mod_self_right, Nat.mod_eq_of_lt hn]
  · rw [carryInto_succ hoff, h, Nat.add_mul_div_right _ _ hpos, Nat.div_eq_of_lt hn, Nat.zero_add]

end Digits

end GroverTax.Lib
