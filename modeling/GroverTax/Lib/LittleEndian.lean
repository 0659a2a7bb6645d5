/-
  File:      GroverTax/Lib/LittleEndian.lean
  Subject:   Byte strings as numbers, the lowest byte first.

  * `leNat_bytesLe`, `bytesLe_leNat` -- reading and writing are inverse to each other;
  * `testBit_leNat` -- bit `i` of the number is bit `i % 8` of byte `i / 8`.
-/
import Mathlib.Data.Nat.Bitwise
import Mathlib.Tactic.Ring

namespace GroverTax.Lib

/-- The number of a byte string. -/
def leNat : List UInt8 → ℕ
  | [] => 0
  | b :: bytes => b.toNat + 256 * leNat bytes

/-- The `n` lowest bytes of a number. -/
def bytesLe : ℕ → ℕ → List UInt8
  | 0, _ => []
  | n + 1, v => UInt8.ofNat v :: bytesLe n (v / 256)

@[simp] theorem length_bytesLe : ∀ n v, (bytesLe n v).length = n
  | 0, _ => rfl
  | n + 1, v => congrArg Nat.succ (length_bytesLe n (v / 256))

theorem leNat_bytesLe : ∀ n v, leNat (bytesLe n v) = v % 256 ^ n
  | 0, v => by rw [pow_zero, Nat.mod_one]; rfl
  | n + 1, v => by
      have hlow : (UInt8.ofNat v).toNat = v % 256 := UInt8.toNat_ofNat'
      rw [bytesLe, leNat, leNat_bytesLe n, hlow, pow_succ', Nat.mod_mul]

theorem leNat_bytesLe_of_lt {n v : ℕ} (h : v < 256 ^ n) : leNat (bytesLe n v) = v := by
  rw [leNat_bytesLe, Nat.mod_eq_of_lt h]

theorem leNat_lt : ∀ bytes : List UInt8, leNat bytes < 256 ^ bytes.length
  | [] => by decide
  | b :: bytes => by
      have hb := b.toNat_lt
      have ih := leNat_lt bytes
      rw [leNat, List.length_cons, pow_succ]
      omega

theorem bytesLe_leNat : ∀ bytes : List UInt8, bytesLe bytes.length (leNat bytes) = bytes
  | [] => rfl
  | b :: bytes => by
      have hb := b.toNat_lt
      have hdiv : (b.toNat + 256 * leNat bytes) / 256 = leNat bytes := by omega
      have hlow : UInt8.ofNat (b.toNat + 256 * leNat bytes) = b := by
        refine UInt8.toNat_inj.mp ?_
        rw [UInt8.toNat_ofNat', Nat.add_mul_mod_self_left, Nat.mod_eq_of_lt hb]
      rw [leNat, List.length_cons, bytesLe, hdiv, hlow, bytesLe_leNat bytes]

theorem leNat_append : ∀ a b : List UInt8, leNat (a ++ b) = leNat a + 256 ^ a.length * leNat b
  | [], b => by simp [leNat]
  | x :: a, b => by
      rw [List.cons_append, leNat, leNat, leNat_append a b, List.length_cons, pow_succ]
      ring

/-- **The bits of the number.** -/
theorem testBit_leNat : ∀ (bytes : List UInt8) (i : ℕ),
    (leNat bytes).testBit i = (bytes.getD (i / 8) 0).toNat.testBit (i % 8)
  | [], i => by simp [leNat]
  | b :: bytes, i => by
      have hb : b.toNat < 2 ^ 8 := b.toNat_lt
      have e : leNat (b :: bytes) = 2 ^ 8 * leNat bytes + b.toNat := by
        rw [leNat]
        omega
      rw [e, Nat.testBit_two_pow_mul_add _ hb]
      by_cases hi : i < 8
      · rw [if_pos hi, Nat.div_eq_of_lt hi, Nat.mod_eq_of_lt hi, List.getD_cons_zero]
      · rw [if_neg hi, testBit_leNat bytes, show i / 8 = (i - 8) / 8 + 1 by omega,
          List.getD_cons_succ, show i % 8 = (i - 8) % 8 by omega]

end GroverTax.Lib
