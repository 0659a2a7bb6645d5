/-
  File:      GroverTax/Lib/Checked.lean
  Subject:   Arithmetic on unsigned integers of `w` bits that panics when it leaves the range.
             A value is a natural number, a panic is `none`.

  Each operation has one equation for the range it is total on; the proofs about programs rewrite
  with these and discharge the range by `omega`.
-/
import Mathlib.Tactic

namespace GroverTax.Lib

/-- `a + b` in `w` bits. -/
def checkedAdd (w a b : ℕ) : Option ℕ := if a + b < 2 ^ w then some (a + b) else none

/-- `a - b`. -/
def checkedSub (a b : ℕ) : Option ℕ := if b ≤ a then some (a - b) else none

/-- `a * b` in `w` bits. -/
def checkedMul (w a b : ℕ) : Option ℕ := if a * b < 2 ^ w then some (a * b) else none

/-- `a / b` and `a % b` panic on a zero divisor. -/
def checkedDivRem (a b : ℕ) : Option (ℕ × ℕ) := if b = 0 then none else some (a / b, a % b)

/-- The conversion to `w` bits. -/
def tryInto (w a : ℕ) : Option ℕ := if a < 2 ^ w then some a else none

variable {w a b c : ℕ}

theorem ite_some_eq_some {p : Prop} [Decidable p] :
    (if p then some a else none) = some c ↔ p ∧ c = a := by
  rw [Option.ite_none_right_eq_some, Option.some.injEq, eq_comm]

theorem checkedAdd_eq_some : checkedAdd w a b = some c ↔ a + b < 2 ^ w ∧ c = a + b :=
  ite_some_eq_some

theorem checkedMul_eq_some : checkedMul w a b = some c ↔ a * b < 2 ^ w ∧ c = a * b :=
  ite_some_eq_some

theorem checkedAdd_of_lt (h : a + b < 2 ^ w) : checkedAdd w a b = some (a + b) := if_pos h

theorem checkedSub_of_le (h : b ≤ a) : checkedSub a b = some (a - b) := if_pos h

theorem checkedMul_of_lt (h : a * b < 2 ^ w) : checkedMul w a b = some (a * b) := if_pos h

theorem tryInto_of_lt (h : a < 2 ^ w) : tryInto w a = some a := if_pos h

/-- The complement of a bit. -/
@[simp] theorem checkedSub_one_toNat (v : Bool) : checkedSub 1 v.toNat = some (!v).toNat := by
  cases v <;> rfl

end GroverTax.Lib
