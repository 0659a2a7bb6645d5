/-
  File:      GroverTax/Lib/Mixers.lean
  Subject:   The two steps of a word mixer: the xor of a word with itself shifted right, and the
             product with an odd constant.

  Each is injective at every width, so no mixer made of them loses a word:
  * `xorShift_injective` -- the top bits stay, and every bit follows from a higher one;
  * `mul_odd_injective` -- an odd number is prime to the modulus.
-/
import Mathlib.Data.Nat.ModEq
import Mathlib.Data.Nat.Prime.Basic

namespace GroverTax.Lib

/-! ## 1. Any width -/

section Width

variable {w k : ℕ}

/-- `x ^ (x >> k)`. -/
def xorShift (k : ℕ) (x : BitVec w) : BitVec w := x ^^^ (x >>> k)

@[simp] theorem getLsbD_xorShift (k : ℕ) (x : BitVec w) (i : ℕ) :
    (xorShift k x).getLsbD i = (x.getLsbD i ^^ x.getLsbD (k + i)) := by
  rw [xorShift, BitVec.getLsbD_xor, BitVec.getLsbD_ushiftRight]

/-- The bits from the top down: `d` of them are done. -/
theorem getLsbD_eq_of_xorShift {x y : BitVec w} (hk : 0 < k) (h : xorShift k x = xorShift k y) :
    ∀ (d i : ℕ), w ≤ i + d → x.getLsbD i = y.getLsbD i
  | 0, i, hi => by
      rw [BitVec.getLsbD_of_ge x i hi, BitVec.getLsbD_of_ge y i hi]
  | d + 1, i, hi => by
      have hhigh := getLsbD_eq_of_xorShift hk h d (k + i) (by omega)
      have hbit : (xorShift k x).getLsbD i = (xorShift k y).getLsbD i := by rw [h]
      rw [getLsbD_xorShift, getLsbD_xorShift, hhigh] at hbit
      exact Bool.xor_left_inj.mp hbit

/-- **The shifted xor loses nothing.** -/
theorem xorShift_injective (hk : 0 < k) : Function.Injective (@xorShift w k) := by
  intro x y h
  refine BitVec.eq_of_getLsbD_eq fun i _ => ?_
  exact getLsbD_eq_of_xorShift hk h w i (Nat.le_add_left w i)

/-- **Nor does the product with an odd number.** -/
theorem mul_odd_injective {m : BitVec w} (hm : Odd m.toNat) :
    Function.Injective fun x : BitVec w => x * m := by
  intro x y h
  have hprod : x.toNat * m.toNat ≡ y.toNat * m.toNat [MOD 2 ^ w] := by
    have hnat := congrArg BitVec.toNat h
    rwa [BitVec.toNat_mul, BitVec.toNat_mul] at hnat
  have hcoprime : (2 ^ w).Coprime m.toNat := Nat.Coprime.pow_left w hm.coprime_two_left
  have hmod := Nat.ModEq.cancel_right_of_coprime hcoprime hprod
  exact BitVec.eq_of_toNat_eq (hmod.eq_of_lt_of_lt x.isLt y.isLt)

end Width

/-! ## 2. Words of 64 bits -/

section Word

/-- The shift is below the width, so the language shifts by all of it. -/
theorem UInt64.xorShift_injective {k : UInt64} (hk : 0 < k.toNat) (hlt : k.toNat < 64) :
    Function.Injective fun x : UInt64 => x ^^^ (x >>> k) := by
  intro x y h
  have hmod : (k.toBitVec % 64).toNat = k.toNat := Nat.mod_eq_of_lt hlt
  have hbits : ∀ z : UInt64, (z ^^^ (z >>> k)).toBitVec = xorShift k.toNat z.toBitVec := by
    intro z
    rw [xorShift, UInt64.toBitVec_xor, UInt64.toBitVec_shiftRight, BitVec.ushiftRight_eq', hmod]
  have hword := congrArg UInt64.toBitVec h
  dsimp only at hword
  rw [hbits, hbits] at hword
  exact UInt64.toBitVec_inj.mp (Lib.xorShift_injective hk hword)

theorem UInt64.mul_odd_injective {m : UInt64} (hm : Odd m.toNat) :
    Function.Injective fun x : UInt64 => x * m := by
  intro x y h
  have hword := congrArg UInt64.toBitVec h
  exact UInt64.toBitVec_inj.mp (Lib.mul_odd_injective hm hword)

end Word

end GroverTax.Lib
