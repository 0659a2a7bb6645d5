/-
  File:      GroverTax/Cairo/Limbs.lean
  Subject:   The 256-bit state of src/stwo-side/cairo/src/limbs.cairo: nine 31-bit limbs, bit `i`
             at limb `i / 31`, place `i % 31`.

  A `u32` is a natural number, its arithmetic is checked, and a panic is `none`.

  * `State.wires` -- the state read as one bit a wire;
  * `State.WF` -- every limb below `2 ^ 31`, the top one below `2 ^ 8`; a well-formed state is
    determined by its wires (`State.WF.ext`);
  * `getBit_eq`, `setBit_spec` -- what the two accessors do, and that they do not panic.
-/
import GroverTax.Gtv1.Bytes
import GroverTax.Lib.BitStore
import GroverTax.Lib.Checked

namespace GroverTax.Cairo

open GroverTax.Lib GroverTax.Gtv1

/-! ## 1. The source -/

def LIMBS : ℕ := 9
def LIMB_BITS : ℕ := 31
def BITS_PER_VALUE : ℕ := 256

structure State where
  l0 : ℕ
  l1 : ℕ
  l2 : ℕ
  l3 : ℕ
  l4 : ℕ
  l5 : ℕ
  l6 : ℕ
  l7 : ℕ
  l8 : ℕ
  deriving DecidableEq, Repr

def zeroState : State := ⟨0, 0, 0, 0, 0, 0, 0, 0, 0⟩

def limbAt (s : State) (i : ℕ) : Option ℕ :=
  if i = 0 then some s.l0
  else if i = 1 then some s.l1
  else if i = 2 then some s.l2
  else if i = 3 then some s.l3
  else if i = 4 then some s.l4
  else if i = 5 then some s.l5
  else if i = 6 then some s.l6
  else if i = 7 then some s.l7
  else if i = 8 then some s.l8
  else none

def withLimb (s : State) (i v : ℕ) : Option State :=
  if i = 0 then some { s with l0 := v }
  else if i = 1 then some { s with l1 := v }
  else if i = 2 then some { s with l2 := v }
  else if i = 3 then some { s with l3 := v }
  else if i = 4 then some { s with l4 := v }
  else if i = 5 then some { s with l5 := v }
  else if i = 6 then some { s with l6 := v }
  else if i = 7 then some { s with l7 := v }
  else if i = 8 then some { s with l8 := v }
  else none

def bitPos (i : ℕ) : ℕ × ℕ := (i / LIMB_BITS, i % LIMB_BITS)

/-- The doubling loop. -/
def pow2U32 (k : ℕ) : Option ℕ := run (fun acc _ => checkedMul 32 acc 2) 1 (List.range k)

def getBit (s : State) (i : ℕ) : Option ℕ :=
  if i ≥ BITS_PER_VALUE then none
  else do
    let (limbIdx, bitInLimb) := bitPos i
    let limb ← limbAt s limbIdx
    return (← checkedDivRem limb (← pow2U32 bitInLimb)).1 &&& 1

def setBit (s : State) (i v : ℕ) : Option State :=
  if i ≥ BITS_PER_VALUE then none
  else if v > 1 then none
  else do
    let (limbIdx, bitInLimb) := bitPos i
    let limb ← limbAt s limbIdx
    let mask ← pow2U32 bitInLimb
    let cleared ← checkedSub limb (limb &&& mask)
    let updated ← checkedAdd 32 cleared (← checkedMul 32 v mask)
    withLimb s limbIdx updated

/-! ## 2. Limbs and wires -/

def State.toList (s : State) : List ℕ := [s.l0, s.l1, s.l2, s.l3, s.l4, s.l5, s.l6, s.l7, s.l8]

/-- Limb `j`; there is nothing beyond the ninth. -/
def State.limb (s : State) (j : ℕ) : ℕ := s.toList.getD j 0

/-- **The state as one bit a wire.** -/
def State.wires (s : State) (i : ℕ) : Bool := (s.limb (i / LIMB_BITS)).testBit (i % LIMB_BITS)

/-- The bits of a value that limb `j` holds. -/
def limbWidth (j : ℕ) : ℕ := if j = 8 then 8 else 31

/-- **Every limb in its range**, the carry slack of the top one clear. -/
def State.WF (s : State) : Prop := ∀ j < LIMBS, s.limb j < 2 ^ limbWidth j

section Limbs

variable {s s' : State} {i j : ℕ}

theorem limbAt_eq (h : j < LIMBS) : limbAt s j = some (s.limb j) := by
  unfold LIMBS at h
  interval_cases j <;> rfl

theorem limb_of_ge (h : ¬ j < LIMBS) : s.limb j = 0 := by
  unfold State.limb
  rw [List.getD_eq_default]
  exact Nat.not_lt.mp h

theorem withLimb_spec (h : i < LIMBS) (v : ℕ) :
    ∃ s', withLimb s i v = some s' ∧ ∀ j, s'.limb j = if j = i then v else s.limb j := by
  unfold LIMBS at h
  interval_cases i
  all_goals
    refine ⟨_, rfl, fun j => ?_⟩
    by_cases hj : j < LIMBS
    · unfold LIMBS at hj
      interval_cases j <;> rfl
    · rw [limb_of_ge hj, limb_of_ge hj, if_neg (by unfold LIMBS at hj; omega)]

theorem State.ext_limb (h : ∀ j < LIMBS, s.limb j = s'.limb j) : s = s' := by
  obtain ⟨a0, a1, a2, a3, a4, a5, a6, a7, a8⟩ := s
  obtain ⟨b0, b1, b2, b3, b4, b5, b6, b7, b8⟩ := s'
  obtain rfl : a0 = b0 := h 0 (by decide)
  obtain rfl : a1 = b1 := h 1 (by decide)
  obtain rfl : a2 = b2 := h 2 (by decide)
  obtain rfl : a3 = b3 := h 3 (by decide)
  obtain rfl : a4 = b4 := h 4 (by decide)
  obtain rfl : a5 = b5 := h 5 (by decide)
  obtain rfl : a6 = b6 := h 6 (by decide)
  obtain rfl : a7 = b7 := h 7 (by decide)
  obtain rfl : a8 = b8 := h 8 (by decide)
  rfl

theorem limbWidth_le (j : ℕ) : limbWidth j ≤ LIMB_BITS := by
  unfold limbWidth LIMB_BITS
  split_ifs <;> omega

/-- Where wire `i` of a value lies. -/
theorem place_of_lt (h : i < BITS_PER_VALUE) :
    i / LIMB_BITS < LIMBS ∧ i % LIMB_BITS < limbWidth (i / LIMB_BITS) := by
  unfold BITS_PER_VALUE at h
  unfold LIMB_BITS LIMBS limbWidth
  split_ifs <;> omega

/-- Places outside the value are slack. -/
theorem place_of_ge (h : ¬ i < BITS_PER_VALUE) (hj : i / LIMB_BITS < LIMBS) :
    limbWidth (i / LIMB_BITS) ≤ i % LIMB_BITS := by
  unfold BITS_PER_VALUE at h
  unfold LIMBS LIMB_BITS at hj
  unfold limbWidth LIMB_BITS
  split_ifs <;> omega

theorem wires_limb (s : State) {k : ℕ} (hk : k < LIMB_BITS) :
    s.wires (LIMB_BITS * j + k) = (s.limb j).testBit k := by
  unfold State.wires
  unfold LIMB_BITS at hk ⊢
  rw [show (31 * j + k) / 31 = j by omega, show (31 * j + k) % 31 = k by omega]

theorem testBit_of_limbWidth_le (h : s.WF) (hj : j < LIMBS) {k : ℕ} (hk : limbWidth j ≤ k) :
    (s.limb j).testBit k = false :=
  Nat.testBit_lt_two_pow ((h j hj).trans_le (Nat.pow_le_pow_right (by decide) hk))

theorem State.WF.mem_states (h : s.WF) : s.wires ∈ states BITS_PER_VALUE := by
  intro i hi
  by_contra hn
  unfold State.wires at hi
  by_cases hj : i / LIMB_BITS < LIMBS
  · rw [testBit_of_limbWidth_le h hj (place_of_ge hn hj)] at hi
    cases hi
  · rw [limb_of_ge hj, Nat.zero_testBit] at hi
    cases hi

/-- **A well-formed state is its wires.** -/
theorem State.WF.ext (h : s.WF) (h' : s'.WF) (e : s.wires = s'.wires) : s = s' := by
  refine State.ext_limb fun j hj => Nat.eq_of_testBit_eq fun k => ?_
  by_cases hk : k < limbWidth j
  · have hk' := hk.trans_le (limbWidth_le j)
    rw [← wires_limb s hk', e, wires_limb s' hk']
  · rw [testBit_of_limbWidth_le h hj (Nat.not_lt.mp hk),
      testBit_of_limbWidth_le h' hj (Nat.not_lt.mp hk)]

theorem zeroState_wf : zeroState.WF := by
  intro j hj
  unfold LIMBS at hj
  interval_cases j <;> decide

theorem wires_zeroState : zeroState.wires = fun _ => false := by
  funext i
  unfold State.wires
  by_cases hj : i / LIMB_BITS < LIMBS
  · have hz : zeroState.limb (i / LIMB_BITS) = 0 := by
      generalize i / LIMB_BITS = j at hj
      unfold LIMBS at hj
      interval_cases j <;> rfl
    rw [hz, Nat.zero_testBit]
  · rw [limb_of_ge hj, Nat.zero_testBit]

/-! ## 3. The accessors -/

theorem pow2U32_eq {k : ℕ} (h : k < 32) : pow2U32 k = some (2 ^ k) := by
  have hrun : ∃ acc, run (fun acc _ => checkedMul 32 acc 2) 1 (List.range k) = some acc ∧
      acc = 2 ^ k := by
    refine run_range (I := fun i acc => acc = 2 ^ i) rfl fun i hi acc e => ?_
    have hlt : acc * 2 < 2 ^ 32 := by
      rw [e, ← Nat.pow_succ]
      exact Nat.pow_lt_pow_right (by decide) (by omega)
    exact ⟨acc * 2, checkedMul_of_lt hlt, by rw [e, Nat.pow_succ]⟩
  obtain ⟨_, hrun, rfl⟩ := hrun
  exact hrun

theorem getBit_eq (h : i < BITS_PER_VALUE) : getBit s i = some (s.wires i).toNat := by
  obtain ⟨hj, hk⟩ := place_of_lt h
  have hk' : i % LIMB_BITS < 32 := (hk.trans_le (limbWidth_le _)).trans (by decide)
  rw [getBit, if_neg (Nat.not_le.mpr h)]
  simp only [bitPos, limbAt_eq hj, pow2U32_eq hk', checkedDivRem, Option.bind_eq_bind,
    Option.bind_some, if_neg (Nat.two_pow_pos (i % LIMB_BITS)).ne', Option.pure_def,
    div_two_pow_and_one, State.wires]

/-- **Writing a bit** writes a wire and keeps the state well formed. -/
theorem setBit_spec (hs : s.WF) (h : i < BITS_PER_VALUE) (v : Bool) :
    ∃ s', setBit s i v.toNat = some s' ∧ s'.WF ∧ s'.wires = Function.update s.wires i v := by
  obtain ⟨hj, hk⟩ := place_of_lt h
  have hk' : i % LIMB_BITS < 32 := (hk.trans_le (limbWidth_le _)).trans (by decide)
  obtain ⟨s', hs', hlimb⟩ := withLimb_spec (s := s) hj
    (writeBit (s.limb (i / LIMB_BITS)) (i % LIMB_BITS) v)
  have hlt : writeBit (s.limb (i / LIMB_BITS)) (i % LIMB_BITS) v < 2 ^ 32 :=
    (writeBit_lt (hs _ hj) hk v).trans_le
      (Nat.pow_le_pow_right (by decide) ((limbWidth_le _).trans (by decide)))
  refine ⟨s', ?_, fun j hjl => ?_, ?_⟩
  · have hv : ¬ v.toNat > 1 := by cases v <;> decide
    have hmul : v.toNat * 2 ^ (i % LIMB_BITS) < 2 ^ 32 := (Nat.le_add_left _ _).trans_lt hlt
    rw [setBit, if_neg (Nat.not_le.mpr h), if_neg hv]
    simp only [bitPos, limbAt_eq hj, pow2U32_eq hk', Option.bind_eq_bind, Option.bind_some,
      checkedSub_of_le (and_two_pow_le _ _), checkedMul_of_lt hmul]
    rw [checkedAdd_of_lt hlt]
    exact hs'
  · rw [hlimb]
    split_ifs with e
    · rw [e]
      exact writeBit_lt (hs _ hj) hk v
    · exact hs j hjl
  · funext j
    unfold State.wires
    rw [hlimb]
    by_cases e : j / LIMB_BITS = i / LIMB_BITS
    · rw [if_pos e, testBit_writeBit]
      by_cases e' : j = i
      · rw [e', if_pos rfl, Function.update_self]
      · have hm : j % LIMB_BITS ≠ i % LIMB_BITS := by
          unfold LIMB_BITS at e ⊢
          omega
        rw [if_neg hm, Function.update_of_ne e', e]
    · rw [if_neg e, Function.update_of_ne (by rintro rfl; exact e rfl)]

/-- **The limbs store 256 bits.** -/
theorem lawfulBits : LawfulBits getBit setBit State.WF State.wires BITS_PER_VALUE where
  get_lt := fun _ _ _ h => getBit_eq h
  set_lt := fun _ _ v hs h => setBit_spec hs h v

/-- Every state of 256 wires is the reading of a well-formed state. -/
theorem exists_wires {b : ℕ → Bool} (hb : b ∈ states BITS_PER_VALUE) :
    ∃ s : State, s.WF ∧ s.wires = b := by
  obtain ⟨s, _, hwf, hw⟩ := lawfulBits.load b zeroState_wf le_rfl
  refine ⟨s, hwf, ?_⟩
  rw [hw, wires_zeroState]
  funext i
  by_cases hi : i < BITS_PER_VALUE
  · rw [if_pos hi]
  · rw [if_neg hi, eq_false_of_supported hb hi]

end Limbs

end GroverTax.Cairo
