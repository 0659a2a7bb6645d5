/-
  File:      GroverTax/Lib/Roots.lean
  Subject:   Roots modulo a prime `p`, on natural numbers; square roots where `p` is `3` modulo `4`.

  * `pow_mul_pow_mod` -- the power `(p + 1) / 4` of a square is a root of it;
  * `eq_or_eq_of_mul_self_mod` -- a number has no roots but one and its negative;
  * `neg_mod_odd` -- the two differ in parity;
  * `pow_div_mod_of_pow_mod` -- what has a root of degree `k` has order one in the power
    `(p - 1) / k`; `pow_mod_ne_of_powMod` reads this as a test.
-/
import GroverTax.Lib.Pratt
import Mathlib.FieldTheory.Finite.Basic

namespace GroverTax.Lib

variable {p a y z : ℕ}

theorem natCast_eq_iff_mod_eq : (y : ZMod p) = z ↔ y % p = z % p :=
  ZMod.natCast_eq_natCast_iff' y z p

/-- **A root of a square.** -/
theorem pow_mul_pow_mod (hp : p.Prime) (h4 : p % 4 = 3) (h : y * y % p = a % p) :
    a ^ ((p + 1) / 4) % p * (a ^ ((p + 1) / 4) % p) % p = a % p := by
  have : Fact p.Prime := ⟨hp⟩
  have hsq : (y : ZMod p) * y = a := by
    rw [← Nat.cast_mul]
    exact natCast_eq_iff_mod_eq.mpr h
  rw [← Nat.mul_mod, ← pow_add]
  refine natCast_eq_iff_mod_eq.mp ?_
  have hexp : 2 * ((p + 1) / 4 + (p + 1) / 4) = p + 1 := by omega
  rw [Nat.cast_pow, ← hsq, ← sq, ← pow_mul, hexp, pow_succ, ZMod.pow_card, sq]

/-- **The roots of a number.** -/
theorem eq_or_eq_of_mul_self_mod (hp : p.Prime) (hy : y < p) (hz : z < p)
    (h : y * y % p = z * z % p) : z = y ∨ z = (p - y) % p := by
  have : Fact p.Prime := ⟨hp⟩
  have hsq : (y : ZMod p) * y = z * z := by
    rw [← Nat.cast_mul, ← Nat.cast_mul]
    exact natCast_eq_iff_mod_eq.mpr h
  rcases mul_self_eq_mul_self_iff.mp hsq.symm with e | e
  · refine Or.inl ?_
    have hmod := natCast_eq_iff_mod_eq.mp e
    rwa [Nat.mod_eq_of_lt hz, Nat.mod_eq_of_lt hy] at hmod
  · refine Or.inr ?_
    have hneg : (z : ZMod p) = ((p - y : ℕ) : ZMod p) := by
      rw [e, Nat.cast_sub hy.le, ZMod.natCast_self, zero_sub]
    have hmod := natCast_eq_iff_mod_eq.mp hneg
    rwa [Nat.mod_eq_of_lt hz] at hmod

/-- **A number and its negative** differ in parity. -/
theorem neg_mod_odd (h4 : p % 4 = 3) (h0 : 0 < y) (hy : y < p) :
    (p - y) % p % 2 = 1 - y % 2 := by
  rw [Nat.mod_eq_of_lt (show p - y < p by omega)]
  omega

/-- The negative is a root of the same number. -/
theorem neg_mul_neg_mod (hy : y ≤ p) : (p - y) % p * ((p - y) % p) % p = y * y % p := by
  refine natCast_eq_iff_mod_eq.mp ?_
  rw [Nat.cast_mul, Nat.cast_mul, ZMod.natCast_mod, Nat.cast_sub hy, ZMod.natCast_self, zero_sub,
    neg_mul_neg]

/-- **Powers of degree `k`** are seen by the power `(p - 1) / k`. -/
theorem pow_div_mod_of_pow_mod {k : ℕ} (hp : p.Prime) (hk : k ∣ p - 1) (ha : a % p ≠ 0)
    (h : y ^ k % p = a % p) : a ^ ((p - 1) / k) % p = 1 := by
  have : Fact p.Prime := ⟨hp⟩
  have hroot : (y : ZMod p) ^ k = a := by
    rw [← Nat.cast_pow]
    exact natCast_eq_iff_mod_eq.mpr h
  have ha0 : (a : ZMod p) ≠ 0 := fun e => ha (Nat.mod_eq_zero_of_dvd
    ((ZMod.natCast_eq_zero_iff a p).mp e))
  have hy0 : (y : ZMod p) ≠ 0 := by
    intro e
    rw [← hroot, e] at ha0
    by_cases hk0 : k = 0
    · have hp2 := hp.two_le
      rw [hk0, zero_dvd_iff] at hk
      omega
    · exact ha0 (zero_pow hk0)
  have hone : ((a ^ ((p - 1) / k) : ℕ) : ZMod p) = ((1 : ℕ) : ZMod p) := by
    rw [Nat.cast_pow, ← hroot, ← pow_mul, Nat.mul_div_cancel' hk, ZMod.pow_card_sub_one_eq_one hy0,
      Nat.cast_one]
  have hmod := natCast_eq_iff_mod_eq.mp hone
  rwa [Nat.mod_eq_of_lt hp.one_lt] at hmod

/-- A number that fails the test has no root. -/
theorem pow_mod_ne_of_powMod {k : ℕ} (hp : p.Prime) (hk : k ∣ p - 1) (ha : a % p ≠ 0)
    (htest : powMod a ((p - 1) / k) p ≠ 1) (y : ℕ) : y ^ k % p ≠ a % p := by
  intro h
  apply htest
  rw [powMod_eq]
  exact pow_div_mod_of_pow_mod hp hk ha h

end GroverTax.Lib
