/-
  File:      GroverTax/Cairo/Io.lean
  Subject:   Bytes in and bytes out, src/stwo-side/cairo/src/io.cairo, and the whole simulation.

  Both sides put wire `i` at bit `i % 8` of byte `i / 8`, so the conversions keep the wires:
  `bytesToState_spec`, `stateToBytes_spec`. Between them runs the gate loop; `simulation_agrees`
  compares the result with the reference simulator's.
-/
import GroverTax.Cairo.Gates
import GroverTax.Python.SimReference

namespace GroverTax.Cairo

open GroverTax.Lib GroverTax.Gtv1

/-! ## 1. The source -/

def pow2U8 (k : ℕ) : ℕ :=
  if k = 0 then 1
  else if k = 1 then 2
  else if k = 2 then 4
  else if k = 3 then 8
  else if k = 4 then 16
  else if k = 5 then 32
  else if k = 6 then 64
  else 128

/-- One round of the loop of `bytes_to_state`: bit `i` of the bytes, written. -/
def loadBit {S : Type} (set : S → ℕ → ℕ → Option S) (bytes : List UInt8) (s : S) (i : ℕ) :
    Option S := do
  let byteVal := (← bytes[i / 8]?).toNat
  let shifted := (← checkedDivRem byteVal (pow2U8 (i % 8))).1
  set s i (shifted &&& 1)

def bytesToState (bytes : List UInt8) : Option State :=
  run (loadBit setBit bytes) zeroState (List.range 256)

/-- The inner loop of `state_to_bytes`. -/
def byteOfState (s : State) (byteIdx : ℕ) : Option ℕ :=
  run (fun byteVal bitInByte => do
    let bitI ← checkedAdd 32 (← checkedMul 32 byteIdx 8) bitInByte
    let b ← getBit s bitI
    return byteVal ||| (← checkedMul 32 b (pow2U8 bitInByte))) 0 (List.range 8)

def stateToBytes (s : State) : Option (List UInt8) :=
  (List.range 32).mapM fun byteIdx => do
    return UInt8.ofNat (← tryInto 8 (← byteOfState s byteIdx))

/-! ## 2. The conversions -/

theorem pow2U8_eq {k : ℕ} (h : k < 8) : pow2U8 k = 2 ^ k := by
  interval_cases k <;> rfl

section Load

variable {S : Type} {get : S → ℕ → Option ℕ} {set : S → ℕ → ℕ → Option S} {inv : S → Prop}
  {rep : S → ℕ → Bool} {n : ℕ}

theorem loadBit_of_lt {bytes : List UInt8} {i : ℕ} (h : i < 8 * bytes.length) (s : S) :
    loadBit set bytes s i = set s i (wires bytes i).toNat := by
  have hk : i % 8 < 8 := Nat.mod_lt _ (by decide)
  have hne : ¬ pow2U8 (i % 8) = 0 := by
    rw [pow2U8_eq hk]
    exact (Nat.two_pow_pos _).ne'
  rw [loadBit, List.getElem?_eq_getElem (by omega), wires_of_lt h, ← div_two_pow_and_one,
    ← pow2U8_eq hk]
  simp only [Option.bind_eq_bind, Option.bind_some, checkedDivRem, if_neg hne]
  rfl

/-- **Loading bytes** into an empty store. -/
theorem run_loadBit (h : LawfulBits get set inv rep n) {bytes : List UInt8}
    (hn : 8 * bytes.length ≤ n) {s : S} (hs : inv s) (hzero : rep s = fun _ => false) :
    ∃ s', run (loadBit set bytes) s (List.range (8 * bytes.length)) = some s' ∧ inv s' ∧
      rep s' = wires bytes := by
  obtain ⟨s', hrun, hinv, hrep⟩ := h.load (wires bytes) hs hn
  refine ⟨s', ?_, hinv, ?_⟩
  · rw [← hrun]
    exact run_congr fun i hi s => loadBit_of_lt (List.mem_range.mp hi) s
  · rw [hrep, hzero]
    funext i
    by_cases hi : i < 8 * bytes.length
    · rw [if_pos hi]
    · rw [if_neg hi, eq_false_of_supported (wires_mem_states bytes) hi]

end Load

theorem bytesToState_spec {bytes : List UInt8} (h : bytes.length = 32) :
    ∃ s, bytesToState bytes = some s ∧ s.WF ∧ s.wires = wires bytes := by
  have hle : 8 * bytes.length ≤ BITS_PER_VALUE := by rw [h]; decide
  have hrun := run_loadBit lawfulBits hle zeroState_wf wires_zeroState
  rwa [h] at hrun

section Store

variable {s : State} {k : ℕ}

theorem testBit_toNat_mul (c : Bool) (i j : ℕ) :
    (c.toNat * 2 ^ i).testBit j = (decide (j = i) && c) := by
  cases c
  · simp
  · rw [Bool.toNat_true, Nat.one_mul, Nat.testBit_two_pow, Bool.and_true]
    exact decide_eq_decide.mpr eq_comm

/-- The byte built bit by bit. -/
theorem byteOfState_spec (hk : k < 32) : ∃ v, byteOfState s k = some v ∧
    (∀ j, v.testBit j = (decide (j < 8) && s.wires (8 * k + j))) := by
  refine run_range (I := fun n (v : ℕ) =>
    ∀ j, v.testBit j = (decide (j < n) && s.wires (8 * k + j))) (by simp) fun i hi v hv => ?_
  have hbit : 8 * k + i < BITS_PER_VALUE := by
    unfold BITS_PER_VALUE
    omega
  have hle : (s.wires (8 * k + i)).toNat * 2 ^ i < 2 ^ 32 := by
    have h1 : (s.wires (8 * k + i)).toNat ≤ 1 := Bool.toNat_le _
    have h2 : 2 ^ i < 2 ^ 32 := Nat.pow_lt_pow_right (by decide) (by omega)
    exact (Nat.mul_le_mul_right _ h1).trans_lt (by omega)
  refine ⟨v ||| (s.wires (8 * k + i)).toNat * 2 ^ i, ?_, fun j => ?_⟩
  · rw [checkedMul_of_lt (by omega), Nat.mul_comm k 8]
    simp only [Option.bind_eq_bind, Option.bind_some]
    rw [checkedAdd_of_lt (by omega)]
    simp only [Option.bind_some, getBit_eq hbit, pow2U8_eq hi, checkedMul_of_lt hle, Option.pure_def]
  · rw [Nat.testBit_or, hv, testBit_toNat_mul]
    by_cases hj : j = i
    · simp [hj]
    · have hiff : j < i ↔ j < i + 1 := by omega
      simp [hj, hiff]

theorem lt_of_byteOfState (hk : k < 32) {v : ℕ} (hv : byteOfState s k = some v) : v < 2 ^ 8 := by
  obtain ⟨v', hv', hbits⟩ := byteOfState_spec hk
  cases hv.symm.trans hv'
  refine Nat.lt_pow_two_of_testBit _ fun j hj => ?_
  rw [hbits, decide_eq_false (Nat.not_lt.mpr hj), Bool.false_and]

/-- **The bytes of a state** have its wires. -/
theorem stateToBytes_spec (h : s.WF) :
    ∃ out, stateToBytes s = some out ∧ out.length = 32 ∧ wires out = s.wires := by
  have hbyte : ∀ k ∈ List.range 32, (do return UInt8.ofNat (← tryInto 8 (← byteOfState s k))) =
      some (UInt8.ofNat ((byteOfState s k).getD 0)) := by
    intro k hk
    obtain ⟨v, hv, -⟩ := byteOfState_spec (s := s) (List.mem_range.mp hk)
    rw [hv]
    simp only [Option.bind_eq_bind, Option.bind_some,
      tryInto_of_lt (lt_of_byteOfState (List.mem_range.mp hk) hv)]
    rfl
  refine ⟨_, mapM_eq_map hbyte, by rw [List.length_map, List.length_range], ?_⟩
  funext i
  by_cases hi : i < BITS_PER_VALUE
  · have hk : i / 8 < 32 := by
      unfold BITS_PER_VALUE at hi
      omega
    obtain ⟨v, hv, hbits⟩ := byteOfState_spec (s := s) hk
    have hlt := lt_of_byteOfState hk hv
    rw [wires, List.getD_eq_getElem _ _ (by simpa using hk), List.getElem_map, List.getElem_range,
      hv, Option.getD_some, UInt8.toNat_ofNat_of_lt' hlt, hbits, decide_eq_true (by omega),
      Bool.true_and, Nat.div_add_mod]
  · rw [wires, List.getD_eq_default]
    · rw [UInt8.toNat_zero, Nat.zero_testBit, eq_false_of_supported h.mem_states hi]
    · rw [List.length_map, List.length_range]
      unfold BITS_PER_VALUE at hi
      omega

end Store

/-! ## 3. The simulation -/

/-- **The limb simulation computes the reference semantics, byte for byte.** -/
theorem simulation_agrees (gates : List Gate) (x : List UInt8)
    (h : ∀ g ∈ gates, rangeCheckGate g = some ()) (hx : x.length = 32) :
    ∃ s s' y, bytesToState x = some s ∧ run step s gates = some s' ∧ stateToBytes s' = some y ∧
      Python.run gates x = .ok y := by
  obtain ⟨s, hs, hwf, hw⟩ := bytesToState_spec hx
  obtain ⟨s', hs', hwf', hw'⟩ := run_step h hwf
  obtain ⟨y, hy, hlen, hwy⟩ := stateToBytes_spec hwf'
  refine ⟨s, s', y, hs, hs', hy, Python.run_ok_iff.mpr ⟨?_, hlen.trans hx.symm, ?_⟩⟩
  · rw [hx]
    exact inRange_of_rangeCheck h
  · rw [hwy, hw', hw]

/-- The theorem at a half adder with both inputs on. -/
theorem simulation_agrees_halfAdder :
    ∃ s s' y, bytesToState (3 :: List.replicate 31 0) = some s ∧ run step s halfAdder = some s' ∧
      stateToBytes s' = some y ∧ Python.run halfAdder (3 :: List.replicate 31 0) = .ok y :=
  simulation_agrees halfAdder (3 :: List.replicate 31 0) (by decide) (by decide)

end GroverTax.Cairo
