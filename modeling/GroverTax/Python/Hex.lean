/-
  File:      GroverTax/Python/Hex.lean
  Subject:   Hexadecimal text: `bytes.fromhex` and `bytes.hex`.

  `fromHex_hex` -- what is written is read back.
-/
import Mathlib.Tactic.IntervalCases

namespace GroverTax.Python

/-- The value of a hexadecimal digit, in either case. -/
def hexDigit (c : Char) : Option ℕ :=
  if '0' ≤ c ∧ c ≤ '9' then some (c.toNat - '0'.toNat)
  else if 'a' ≤ c ∧ c ≤ 'f' then some (c.toNat - 'a'.toNat + 10)
  else if 'A' ≤ c ∧ c ≤ 'F' then some (c.toNat - 'A'.toNat + 10)
  else none

/-- The characters `bytes.fromhex` skips before a byte. -/
def isAsciiSpace (c : Char) : Bool :=
  c = ' ' ∨ c = '\t' ∨ c = '\n' ∨ c = '\x0b' ∨ c = '\x0c' ∨ c = '\r'

/-- `bytes.fromhex`; `none` is a ValueError. -/
def fromHex : List Char → Option (List UInt8)
  | [] => some []
  | [c] => if isAsciiSpace c then some [] else none
  | c :: d :: rest =>
      if isAsciiSpace c then fromHex (d :: rest)
      else do
        let top ← hexDigit c
        let bot ← hexDigit d
        return UInt8.ofNat (top * 16 + bot) :: (← fromHex rest)

/-- `bytes.hex()` writes two lower-case digits a byte. -/
def hexChar (d : ℕ) : Char :=
  if d < 10 then Char.ofNat ('0'.toNat + d) else Char.ofNat ('a'.toNat + (d - 10))

def hex (data : List UInt8) : List Char :=
  data.flatMap fun b => [hexChar (b.toNat / 16), hexChar (b.toNat % 16)]

theorem hexChar_spec {d : ℕ} (h : d < 16) :
    hexDigit (hexChar d) = some d ∧ isAsciiSpace (hexChar d) = false := by
  interval_cases d <;> decide

/-- **What is written is read back.** -/
theorem fromHex_hex : ∀ data : List UInt8, fromHex (hex data) = some data
  | [] => rfl
  | b :: data => by
      have hb := b.toNat_lt
      obtain ⟨htop, hspace⟩ := hexChar_spec (show b.toNat / 16 < 16 by omega)
      obtain ⟨hbot, -⟩ := hexChar_spec (show b.toNat % 16 < 16 by omega)
      have hval : UInt8.ofNat (b.toNat / 16 * 16 + b.toNat % 16) = b := by
        rw [Nat.div_add_mod', UInt8.ofNat_toNat]
      rw [hex, List.flatMap_cons, List.cons_append, List.cons_append, List.nil_append, fromHex,
        hspace, htop, hbot]
      simp only [Bool.false_eq_true, if_false, Option.bind_eq_bind, Option.bind_some, hval]
      rw [← hex, fromHex_hex data]
      rfl

end GroverTax.Python
