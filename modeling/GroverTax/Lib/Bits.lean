/-
  File:      GroverTax/Lib/Bits.lean
  Subject:   Reading and writing one bit of a word, as the arithmetic and as the bitwise operators
             compute it.

  Each operation has one lemma that says what every bit of its result is.
-/
import Mathlib.Data.Nat.Bitwise
import Mathlib.Tactic

namespace GroverTax.Lib

/-! ## 1. Natural numbers -/

section Nat

variable {m k w : ℕ}

/-- `(m / 2 ^ k) & 1`. -/
theorem div_two_pow_and_one (m k : ℕ) : m / 2 ^ k &&& 1 = (m.testBit k).toNat := by
  rw [Nat.and_one_is_mod, Nat.toNat_testBit]

/-- The word `m` with bit `k` written: the bit is subtracted, and the new one added. -/
def writeBit (m k : ℕ) (v : Bool) : ℕ := m - (m &&& 2 ^ k) + v.toNat * 2 ^ k

theorem and_two_pow_le (m k : ℕ) : m &&& 2 ^ k ≤ m := Nat.and_le_left

/-- What lies above bit `k`, the bit, and what lies below. -/
theorem writeBit_eq (m k : ℕ) (v : Bool) :
    writeBit m k v = 2 ^ k * (2 * (m / 2 ^ (k + 1)) + v.toNat) + m % 2 ^ k := by
  have hm : m = 2 ^ k * (2 * (m / 2 ^ (k + 1))) + 2 ^ k * (m.testBit k).toNat + m % 2 ^ k := by
    rw [← Nat.mul_add, Nat.toNat_testBit, Nat.pow_succ, ← Nat.div_div_eq_div_mul,
      Nat.div_add_mod, Nat.div_add_mod]
  rw [writeBit, Nat.and_two_pow, Nat.mul_add, Nat.mul_comm v.toNat, Nat.mul_comm _ (2 ^ k)]
  omega

/-- **Every bit of the written word.** -/
theorem testBit_writeBit (m k : ℕ) (v : Bool) (j : ℕ) :
    (writeBit m k v).testBit j = if j = k then v else m.testBit j := by
  rw [writeBit_eq, Nat.testBit_two_pow_mul_add _ (Nat.mod_lt _ (Nat.two_pow_pos k))]
  by_cases hlt : j < k
  · rw [if_pos hlt, if_neg (by omega), Nat.testBit_mod_two_pow, decide_eq_true hlt,
      Bool.true_and]
  · rw [if_neg hlt]
    by_cases he : j = k
    · rw [he, if_pos rfl, Nat.sub_self, Nat.testBit_zero]
      cases v <;> simp
    · obtain ⟨i, rfl⟩ : ∃ i, j = k + 1 + i := ⟨j - k - 1, by omega⟩
      have hdiv : (2 * (m / 2 ^ (k + 1)) + v.toNat) / 2 = m / 2 ^ (k + 1) := by
        cases v
        · simp
        · simp only [Bool.toNat_true]
          omega
      rw [if_neg he, show k + 1 + i - k = i + 1 by omega, Nat.testBit_succ, hdiv,
        Nat.testBit_div_two_pow, Nat.add_comm]

theorem writeBit_lt (hm : m < 2 ^ w) (hk : k < w) (v : Bool) : writeBit m k v < 2 ^ w := by
  refine Nat.lt_pow_two_of_testBit _ fun j hj => ?_
  rw [testBit_writeBit, if_neg (by omega)]
  exact Nat.testBit_lt_two_pow (hm.trans_le (Nat.pow_le_pow_right (by decide) hj))

end Nat

/-! ## 2. Bytes -/

section Byte

variable {b c : UInt8} {k : ℕ}

theorem UInt8.eq_of_testBit (h : ∀ j < 8, b.toNat.testBit j = c.toNat.testBit j) : b = c := by
  refine UInt8.toNat_inj.mp (Nat.eq_of_testBit_eq fun j => ?_)
  by_cases hj : j < 8
  · exact h j hj
  · have hle : 2 ^ 8 ≤ 2 ^ j := Nat.pow_le_pow_right (by decide) (by omega)
    rw [Nat.testBit_lt_two_pow (b.toNat_lt.trans_le hle),
      Nat.testBit_lt_two_pow (c.toNat_lt.trans_le hle)]

/-- `1 << k`. -/
theorem toNat_one_shiftLeft (hk : k < 8) : ((1 : UInt8) <<< UInt8.ofNat k).toNat = 2 ^ k := by
  rw [UInt8.toNat_shiftLeft, UInt8.toNat_ofNat_of_lt' (hk.trans (by decide)), Nat.mod_eq_of_lt hk]
  exact (Nat.mod_eq_of_lt (by
    rw [UInt8.toNat_one, Nat.one_shiftLeft]
    exact Nat.pow_lt_pow_right (by decide) hk)).trans (Nat.one_shiftLeft k)

/-- `(b >> k) & 1`. -/
theorem shiftRight_and_one (b : UInt8) (hk : k < 8) :
    (b >>> UInt8.ofNat k) &&& 1 = (b.toNat.testBit k).toUInt8 := by
  refine UInt8.toNat_inj.mp ?_
  rw [UInt8.toNat_and, UInt8.toNat_shiftRight, UInt8.toNat_ofNat_of_lt' (hk.trans (by decide)),
    Nat.mod_eq_of_lt hk, UInt8.toNat_one, Nat.shiftRight_eq_div_pow, div_two_pow_and_one]
  cases b.toNat.testBit k <;> rfl

/-- The byte `b` with bit `k` written. -/
def writeByteBit (b : UInt8) (k : ℕ) (v : Bool) : UInt8 :=
  if v then b ||| ((1 : UInt8) <<< UInt8.ofNat k) else b &&& ~~~((1 : UInt8) <<< UInt8.ofNat k)

/-- **Every bit of the written byte.** -/
theorem testBit_writeByteBit (b : UInt8) (hk : k < 8) (v : Bool) (j : ℕ) :
    (writeByteBit b k v).toNat.testBit j = if j = k then v else b.toNat.testBit j := by
  unfold writeByteBit
  cases v with
  | true =>
    rw [if_pos rfl, UInt8.toNat_or, toNat_one_shiftLeft hk, Nat.testBit_or, Nat.testBit_two_pow]
    by_cases h : j = k
    · simp [h]
    · rw [if_neg h, decide_eq_false (Ne.symm h), Bool.or_false]
  | false =>
    have hlt : 2 ^ k < 2 ^ 8 := Nat.pow_lt_pow_right (by decide) hk
    have hnot : (~~~((1 : UInt8) <<< UInt8.ofNat k)).toNat = 2 ^ 8 - (2 ^ k + 1) := by
      rw [UInt8.toNat_not, toNat_one_shiftLeft hk, UInt8.size]
      omega
    rw [if_neg (by decide), UInt8.toNat_and, hnot, Nat.testBit_and,
      Nat.testBit_two_pow_sub_succ hlt, Nat.testBit_two_pow]
    by_cases h : j = k
    · simp [h]
    · by_cases hj : j < 8
      · simp [h, hj, Ne.symm h]
      · have hle : 2 ^ 8 ≤ 2 ^ j := Nat.pow_le_pow_right (by decide) (by omega)
        rw [if_neg h, Nat.testBit_lt_two_pow (b.toNat_lt.trans_le hle), Bool.false_and]

end Byte

end GroverTax.Lib
