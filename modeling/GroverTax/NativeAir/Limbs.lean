/-
  File:      GroverTax/NativeAir/Limbs.lean
  Subject:   The limb arithmetic of benchmarks/stwo/iadd256/native-air/src/main.rs: a 256-bit
             register as nine limbs (eight of 29 bits, the top one of 24).

  * `limbBits`, `limbBase`, `biguintToLimbs`, `stateFromLimbs` -- as the source computes them;
  * `lowRegisterFromStateHex` -- the claimed output of a test case: the first 32 bytes of its
    `y_hex`, little endian;
  * `biguintToLimbs_eq_digit` -- the limbs are the digits of `GroverTax.Lib.digit`, and so
    `biguintToLimbs_inj`: they determine the register modulo `2 ^ 256`.
-/
import GroverTax.Lib.Digits
import Mathlib.Data.List.GetD
import Mathlib.Tactic

namespace GroverTax.NativeAir

open GroverTax.Lib

/-! ## 1. Constants -/

def LIMBS : ℕ := 9
def LIMB_BITS : ℕ := 29
def TOP_LIMB_BITS : ℕ := 256 - LIMB_BITS * (LIMBS - 1)
def LOOKUP_CHUNK_BITS : ℕ := 18
def IADD_STATE_WIDTH : ℕ := 2 + 2 * LIMBS
def M31_MODULUS_U32 : ℕ := 2 ^ 31 - 1

def limbBits (i : ℕ) : ℕ := if i + 1 = LIMBS then TOP_LIMB_BITS else LIMB_BITS

def limbBase (i : ℕ) : ℕ := 1 <<< limbBits i

/-- The variable `offset` of `biguint_to_limbs` when the loop reaches limb `i`. -/
def limbOffset : ℕ → ℕ
  | 0 => 0
  | i + 1 => limbOffset i + limbBits i

/-- An element of the base field, `BaseField` in the source. -/
abbrev M31 : Type := ZMod 2147483647

/-- `BaseField::from_u32_unchecked` keeps the value as it is; this is the element it stands for,
    and below the modulus its canonical form. -/
def fromU32Unchecked (v : ℕ) : M31 := (v : M31)

/-! ## 2. Registers as limbs -/

/-- `limb.to_u32_digits().first()` reads the low 32 bits of a masked limb. -/
def biguintToLimbs (value : ℕ) : List ℕ :=
  (List.range LIMBS).map fun i =>
    ((value >>> limbOffset i) &&& ((1 <<< limbBits i) - 1)) % 2 ^ 32

/-- The 20 field elements of a state tuple: sample, repetition, accumulator, addend. -/
def stateFromLimbs (sampleId repIdx : ℕ) (acc addend : List ℕ) : List M31 :=
  (List.range IADD_STATE_WIDTH).map fun i =>
    fromU32Unchecked
      (if i = 0 then sampleId
       else if i = 1 then repIdx
       else if i < 2 + LIMBS then acc.getD (i - 2) 0
       else addend.getD (i - 2 - LIMBS) 0)

/-- One hexadecimal digit, either case, as `hex::decode` reads it. -/
def hexDigit (c : Char) : Option ℕ :=
  if '0' ≤ c ∧ c ≤ '9' then some (c.toNat - '0'.toNat)
  else if 'a' ≤ c ∧ c ≤ 'f' then some (c.toNat - 'a'.toNat + 10)
  else if 'A' ≤ c ∧ c ≤ 'F' then some (c.toNat - 'A'.toNat + 10)
  else none

/-- `hex::decode`: two digits a byte, the high one first; an odd length is an error. -/
def hexDecode : List Char → Option (List ℕ)
  | [] => some []
  | [_] => none
  | hi :: lo :: rest => do
      let h ← hexDigit hi
      let l ← hexDigit lo
      let bytes ← hexDecode rest
      return (16 * h + l) :: bytes

/-- `BigUint::from_bytes_le`. -/
def fromBytesLe : List ℕ → ℕ
  | [] => 0
  | b :: bytes => b + 256 * fromBytesLe bytes

/-- The claimed low register of a state: its first 32 bytes. -/
def lowRegisterFromStateHex (hex : String) : Option ℕ := do
  let bytes ← hexDecode hex.toList
  if bytes.length < 32 then none
  else some (fromBytesLe (bytes.take 32))

/-- One test case of the fixture. -/
structure TestCase where
  r0In : ℕ
  r1In : ℕ
  yHex : String

/-! ## 3. The limbs are digits -/

theorem limbBits_le (i : ℕ) : limbBits i ≤ 29 := by
  unfold limbBits TOP_LIMB_BITS LIMB_BITS LIMBS
  split <;> omega

theorem limbBase_eq (i : ℕ) : limbBase i = 2 ^ limbBits i := Nat.one_shiftLeft _

theorem limbOffset_succ (i : ℕ) : limbOffset (i + 1) = limbOffset i + limbBits i := rfl

theorem limbOffset_LIMBS : limbOffset LIMBS = 256 := by decide

/-- Limb `i` of a register. -/
abbrev limb (value i : ℕ) : ℕ := digit limbOffset limbBits value i

theorem biguintToLimbs_eq_digit (value : ℕ) :
    biguintToLimbs value = (List.range LIMBS).map (limb value) := by
  unfold biguintToLimbs
  refine List.map_congr_left fun i _ => ?_
  rw [Nat.one_shiftLeft, Nat.and_two_pow_sub_one_eq_mod, Nat.shiftRight_eq_div_pow]
  refine Nat.mod_eq_of_lt (lt_of_lt_of_le (Nat.mod_lt _ (Nat.two_pow_pos _)) ?_)
  exact Nat.pow_le_pow_right (by decide) ((limbBits_le i).trans (by decide))

@[simp] theorem length_biguintToLimbs (value : ℕ) : (biguintToLimbs value).length = LIMBS := by
  simp [biguintToLimbs]

theorem getD_biguintToLimbs (value : ℕ) {i : ℕ} (h : i < LIMBS) :
    (biguintToLimbs value).getD i 0 = limb value i := by
  rw [biguintToLimbs_eq_digit, List.getD_eq_getElem _ _ (by simpa using h)]
  simp

/-- **The limbs determine the register.** -/
theorem biguintToLimbs_inj {a b : ℕ} (h : biguintToLimbs a = biguintToLimbs b) :
    a % 2 ^ 256 = b % 2 ^ 256 := by
  have hlimb : ∀ i, i < LIMBS → limb a i = limb b i := fun i hi => by
    rw [← getD_biguintToLimbs a hi, ← getD_biguintToLimbs b hi, h]
  have hd := digit_inj rfl limbOffset_succ LIMBS hlimb
  rwa [limbOffset_LIMBS] at hd

theorem limb_lt (value i : ℕ) : limb value i < 2 ^ 29 :=
  lt_of_lt_of_le (digit_lt value i) (Nat.pow_le_pow_right (by decide) (limbBits_le i))

/-- A state tuple is its two indices, then its two registers. -/
theorem stateFromLimbs_eq (s k a b : ℕ) :
    stateFromLimbs s k (biguintToLimbs a) (biguintToLimbs b) =
      fromU32Unchecked s :: fromU32Unchecked k ::
        ((biguintToLimbs a).map fromU32Unchecked ++ (biguintToLimbs b).map fromU32Unchecked) := by
  rw [biguintToLimbs_eq_digit, biguintToLimbs_eq_digit]
  rfl

/-- The limbs of a register as field elements. -/
def limbsM31 (value : ℕ) : List M31 := (biguintToLimbs value).map fromU32Unchecked

@[simp] theorem length_limbsM31 (value : ℕ) : (limbsM31 value).length = LIMBS := by
  simp [limbsM31]

theorem getD_limbsM31 (value : ℕ) {i : ℕ} (h : i < LIMBS) :
    (limbsM31 value).getD i 0 = (limb value i : M31) := by
  rw [← getD_biguintToLimbs value h, limbsM31, List.getD_eq_getElem _ _ (by simpa using h),
    List.getD_eq_getElem _ _ (by simpa using h), List.getElem_map]
  rfl

/-- A 32-byte little-endian number is below `2 ^ 256`. -/
theorem fromBytesLe_lt : ∀ (bytes : List ℕ), (∀ b ∈ bytes, b < 256) →
    fromBytesLe bytes < 2 ^ (8 * bytes.length)
  | [], _ => by simp [fromBytesLe]
  | b :: bytes, h => by
      have ih := fromBytesLe_lt bytes fun x hx => h x (List.mem_cons_of_mem _ hx)
      have hb := h b List.mem_cons_self
      rw [List.length_cons, Nat.mul_succ, pow_add]
      simp only [fromBytesLe]
      omega

theorem hexDigit_lt {c : Char} {v : ℕ} (h : hexDigit c = some v) : v < 16 := by
  unfold hexDigit at h
  have le_toNat : ∀ {a b : Char}, a ≤ b → a.toNat ≤ b.toNat := fun h => h
  split_ifs at h with h1 h2 h3 <;> cases h
  · have := le_toNat h1.2
    simp at this ⊢
    omega
  · have := le_toNat h2.2
    simp at this ⊢
    omega
  · have := le_toNat h3.2
    simp at this ⊢
    omega

theorem hexDecode_lt : ∀ (cs : List Char) (bytes : List ℕ), hexDecode cs = some bytes →
    ∀ b ∈ bytes, b < 256
  | [], _, h => by cases h; simp
  | [_], _, h => by cases h
  | hi :: lo :: rest, bytes, h => by
      simp only [hexDecode, Option.bind_eq_bind, Option.bind_eq_some_iff, Option.pure_def] at h
      obtain ⟨x, hx, y, hy, bs, hbs, e⟩ := h
      cases e
      intro b hb
      rcases List.mem_cons.mp hb with rfl | hb
      · have := hexDigit_lt hx
        have := hexDigit_lt hy
        omega
      · exact hexDecode_lt rest bs hbs b hb

/-- The claimed register is a 256-bit number. -/
theorem lowRegisterFromStateHex_lt {hex : String} {v : ℕ}
    (h : lowRegisterFromStateHex hex = some v) : v < 2 ^ 256 := by
  simp only [lowRegisterFromStateHex, Option.bind_eq_bind, Option.bind_eq_some_iff] at h
  obtain ⟨bytes, hb, h⟩ := h
  split_ifs at h with hlen
  cases h
  have := fromBytesLe_lt (bytes.take 32) fun b hm =>
    hexDecode_lt _ bytes hb b (List.mem_of_mem_take hm)
  rwa [List.length_take, Nat.min_eq_left (by omega)] at this

end GroverTax.NativeAir
