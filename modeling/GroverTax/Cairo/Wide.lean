/-
  File:      GroverTax/Cairo/Wide.lean
  Subject:   The 512-bit state of src/stwo-side/cairo/src/wide.cairo: two 256-bit states, wire `256`
             and up in the second one.

  Validation and execution are those of gates.cairo at 512 wires and at these accessors; what is
  new is the split at wire `256`, and it is a lawful store (`lawfulBits512`).
-/
import GroverTax.Cairo.Io

namespace GroverTax.Cairo

open GroverTax.Lib GroverTax.Gtv1

/-! ## 1. The source -/

def BITS_PER_VALUE_512 : ℕ := 512
def MAX_STATE_BYTES : ℕ := 64

structure State512 where
  lo : State
  hi : State
  deriving DecidableEq, Repr

def zeroState512 : State512 := ⟨zeroState, zeroState⟩

def getBit512 (s : State512) (i : ℕ) : Option ℕ :=
  if i ≥ BITS_PER_VALUE_512 then none
  else if i < 256 then getBit s.lo i
  else do getBit s.hi (← checkedSub i 256)

def setBit512 (s : State512) (i v : ℕ) : Option State512 :=
  if i ≥ BITS_PER_VALUE_512 then none
  else if i < 256 then do return ⟨← setBit s.lo i v, s.hi⟩
  else do return ⟨s.lo, ← setBit s.hi (← checkedSub i 256) v⟩

/-- `range_check_gate512`. -/
def rangeCheckGate512 (gate : Gate) : Option Unit := checkGate BITS_PER_VALUE_512 gate

/-- `step512`. -/
def step512 (s : State512) (gate : Gate) : Option State512 := stepWith getBit512 setBit512 s gate

def bytesToState512 (bytes : List UInt8) : Option State512 :=
  let nBytes := bytes.length
  if nBytes > MAX_STATE_BYTES then none
  else do
    let nBits ← checkedMul 32 nBytes 8
    run (loadBit setBit512 bytes) zeroState512 (List.range nBits)

/-! ## 2. Two states as one -/

/-- The wires of the pair. -/
def State512.wires (s : State512) (i : ℕ) : Bool :=
  if i < 256 then s.lo.wires i else s.hi.wires (i - 256)

structure State512.WF (s : State512) : Prop where
  lo : s.lo.WF
  hi : s.hi.WF

section Wide

variable {s s' : State512} {i : ℕ}

theorem update_lo (h : i < 256) (v : Bool) (lo' : State)
    (hw : lo'.wires = Function.update s.lo.wires i v) :
    (⟨lo', s.hi⟩ : State512).wires = Function.update s.wires i v := by
  funext j
  by_cases hj : j = i
  · rw [hj, Function.update_self, State512.wires, if_pos h, hw, Function.update_self]
  · rw [Function.update_of_ne hj, State512.wires, State512.wires, hw, Function.update_of_ne hj]

theorem update_hi (h : ¬ i < 256) (v : Bool) (hi' : State)
    (hw : hi'.wires = Function.update s.hi.wires (i - 256) v) :
    (⟨s.lo, hi'⟩ : State512).wires = Function.update s.wires i v := by
  funext j
  by_cases hj : j = i
  · rw [hj, Function.update_self, State512.wires, if_neg h, hw, Function.update_self]
  · rw [Function.update_of_ne hj]
    unfold State512.wires
    by_cases hlt : j < 256
    · rw [if_pos hlt, if_pos hlt]
    · rw [if_neg hlt, if_neg hlt, hw, Function.update_of_ne (by omega)]

/-- **The pair stores 512 bits.** -/
theorem lawfulBits512 :
    LawfulBits getBit512 setBit512 State512.WF State512.wires BITS_PER_VALUE_512 where
  get_lt := by
    intro s i _ h
    have h512 : i < 512 := h
    rw [getBit512, if_neg (Nat.not_le.mpr h), State512.wires]
    by_cases hlt : i < 256
    · rw [if_pos hlt, if_pos hlt]
      exact getBit_eq hlt
    · have hhi : i - 256 < BITS_PER_VALUE := Nat.sub_lt_left_of_lt_add (Nat.not_lt.mp hlt) h512
      rw [if_neg hlt, if_neg hlt, checkedSub_of_le (Nat.not_lt.mp hlt), ← getBit_eq hhi,
        Option.bind_eq_bind, Option.bind_some]
  set_lt := by
    intro s i v hs h
    have h512 : i < 512 := h
    rw [setBit512, if_neg (Nat.not_le.mpr h)]
    by_cases hlt : i < 256
    · obtain ⟨lo', hset, hwf, hw⟩ := setBit_spec hs.lo hlt v
      refine ⟨⟨lo', s.hi⟩, ?_, ⟨hwf, hs.hi⟩, update_lo hlt v lo' hw⟩
      rw [if_pos hlt, hset]
      rfl
    · have hhi : i - 256 < BITS_PER_VALUE := Nat.sub_lt_left_of_lt_add (Nat.not_lt.mp hlt) h512
      obtain ⟨hi', hset, hwf, hw⟩ := setBit_spec hs.hi hhi v
      refine ⟨⟨s.lo, hi'⟩, ?_, ⟨hs.lo, hwf⟩, update_hi hlt v hi' hw⟩
      rw [if_neg hlt, checkedSub_of_le (Nat.not_lt.mp hlt)]
      simp only [Option.bind_eq_bind, Option.bind_some, hset]
      rfl

theorem zeroState512_wf : zeroState512.WF := ⟨zeroState_wf, zeroState_wf⟩

theorem wires_zeroState512 : zeroState512.wires = fun _ => false := by
  funext i
  unfold State512.wires zeroState512
  rw [wires_zeroState]
  split_ifs <;> rfl

/-- **A well-formed pair is its wires.** -/
theorem State512.WF.ext (h : s.WF) (h' : s'.WF) (e : s.wires = s'.wires) : s = s' := by
  have hlo : s.lo = s'.lo := by
    refine h.lo.ext h'.lo (funext fun i => ?_)
    by_cases hi : i < 256
    · have hw := congrFun e i
      rw [State512.wires, State512.wires, if_pos hi, if_pos hi] at hw
      exact hw
    · rw [eq_false_of_supported h.lo.mem_states hi, eq_false_of_supported h'.lo.mem_states hi]
  have hhi : s.hi = s'.hi := by
    refine h.hi.ext h'.hi (funext fun i => ?_)
    have hw := congrFun e (i + 256)
    rw [State512.wires, State512.wires, if_neg (by omega), if_neg (by omega),
      Nat.add_sub_cancel] at hw
    exact hw
  obtain ⟨lo, hi⟩ := s
  obtain ⟨lo', hi'⟩ := s'
  rw [show lo = lo' from hlo, show hi = hi' from hhi]

/-- **Up to 64 bytes** are loaded, the wires beyond them clear. -/
theorem bytesToState512_spec {bytes : List UInt8} (h : bytes.length ≤ 64) :
    ∃ s, bytesToState512 bytes = some s ∧ s.WF ∧ s.wires = wires bytes := by
  have hle : ¬ bytes.length > MAX_STATE_BYTES := Nat.not_lt.mpr h
  have hbits : 8 * bytes.length ≤ BITS_PER_VALUE_512 := by
    unfold BITS_PER_VALUE_512
    omega
  obtain ⟨s, hrun, hwf, hw⟩ := run_loadBit lawfulBits512 hbits zeroState512_wf wires_zeroState512
  refine ⟨s, ?_, hwf, hw⟩
  rw [bytesToState512, if_neg hle, checkedMul_of_lt (by omega), Nat.mul_comm]
  exact hrun

/-- A validated gate list runs without a panic, on wires as `simulate` says. -/
theorem run_step512 {gates : List Gate} (h : ∀ g ∈ gates, rangeCheckGate512 g = some ())
    (hs : s.WF) :
    ∃ s', run step512 s gates = some s' ∧ s'.WF ∧ s'.wires = simulate gates s.wires :=
  run_stepWith lawfulBits512 (by decide) h hs

end Wide

end GroverTax.Cairo
