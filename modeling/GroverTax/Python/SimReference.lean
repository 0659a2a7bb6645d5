/-
  File:      GroverTax/Python/SimReference.lean
  Subject:   The reference simulator, src/python/grover_tax/sim_reference.py: `BitVector`, `step`
             and `run`.

  A raised exception is an error value. `run_ok_iff` says when a run raises none, and what it
  returns.
-/
import GroverTax.Gtv1.Bytes

namespace GroverTax.Python

open GroverTax.Lib GroverTax.Gtv1

/-! ## 1. The simulator -/

/-- The exceptions of this module, with the data they print. -/
inductive SimError where
  /-- BitVector.get: index {i} out of range [0, {len}) -/
  | getIndex (i len : ℕ)
  /-- BitVector.set: index {i} out of range [0, {len}) -/
  | setIndex (i len : ℕ)
  /-- BitVector.set: value must be 0 or 1, got {v} -/
  | setValue (v : ℕ)
  /-- step: unknown opcode {op} -/
  | unknownOpcode (op : ℕ)
  deriving DecidableEq, Repr

structure BitVector where
  data : List UInt8
  deriving DecidableEq, Repr

def BitVector.len (s : BitVector) : ℕ := s.data.length * 8

def BitVector.get (s : BitVector) (i : ℕ) : Except SimError ℕ :=
  if i < s.len then .ok ((s.data.getD (i / 8) 0).toNat >>> (i % 8) &&& 1)
  else .error (.getIndex i s.len)

/-- `~(1 << bit_idx) & 0xFF` is the complement of a byte. -/
def BitVector.set (s : BitVector) (i v : ℕ) : Except SimError BitVector :=
  if ¬ i < s.len then .error (.setIndex i s.len)
  else if v ≠ 0 ∧ v ≠ 1 then .error (.setValue v)
  else
    let byteIdx := i / 8
    let bitIdx := i % 8
    let byte := s.data.getD byteIdx 0
    if v = 1 then .ok ⟨s.data.set byteIdx (byte ||| (1 : UInt8) <<< UInt8.ofNat bitIdx)⟩
    else .ok ⟨s.data.set byteIdx (byte &&& ~~~((1 : UInt8) <<< UInt8.ofNat bitIdx))⟩

def step (state : BitVector) (gate : Gate) : Except SimError BitVector :=
  if gate.opcode = OP_NOP then .ok state
  else if gate.opcode = OP_NOT then do
    state.set gate.target ((← state.get gate.target) ^^^ 1)
  else if gate.opcode = OP_CNOT then do
    let c ← state.get gate.ctrlA
    state.set gate.target ((← state.get gate.target) ^^^ c)
  else if gate.opcode = OP_TOFFOLI then do
    let c := (← state.get gate.ctrlA) &&& (← state.get gate.ctrlB)
    state.set gate.target ((← state.get gate.target) ^^^ c)
  else .error (.unknownOpcode gate.opcode)

def run (circuit : List Gate) (x : List UInt8) : Except SimError (List UInt8) := do
  let state ← circuit.foldlM step ⟨x⟩
  return state.data

/-! ## 2. What it computes -/

section Spec

variable {s : BitVector} {i : ℕ}

theorem BitVector.get_of_lt (h : i < 8 * s.data.length) :
    s.get i = .ok (wires s.data i).toNat := by
  rw [BitVector.get, if_pos (by rw [BitVector.len]; omega), Nat.shiftRight_eq_div_pow,
    div_two_pow_and_one]
  rfl

theorem BitVector.get_of_ge (h : ¬ i < 8 * s.data.length) : s.get i = .error (.getIndex i s.len) :=
  if_neg (by rw [BitVector.len]; omega)

theorem BitVector.set_of_lt (h : i < 8 * s.data.length) (v : Bool) : s.set i v.toNat =
    .ok ⟨writeWire s.data i v⟩ := by
  rw [BitVector.set, if_neg (by rw [BitVector.len]; omega)]
  cases v <;> rfl

theorem toNat_xor (a b : Bool) : a.toNat ^^^ b.toNat = (a ^^ b).toNat := by
  cases a <;> cases b <;> rfl

theorem toNat_and (a b : Bool) : a.toNat &&& b.toNat = (a && b).toNat := by
  cases a <;> cases b <;> rfl

/-- The last line of every branch. -/
theorem toOption_flip (s : BitVector) (t : ℕ) (c : Bool) :
    (do s.set t ((← s.get t) ^^^ c.toNat) : Except SimError BitVector).toOption.map
      BitVector.data =
      if t < 8 * s.data.length then some (writeWire s.data t (wires s.data t ^^ c)) else none := by
  by_cases h : t < 8 * s.data.length
  · have hset := BitVector.set_of_lt h (wires s.data t ^^ c)
    rw [← toNat_xor] at hset
    rw [BitVector.get_of_lt h, if_pos h]
    exact congrArg (fun r : Except SimError BitVector => r.toOption.map BitVector.data) hset
  · rw [BitVector.get_of_ge h, if_neg h]
    rfl

/-- **A step is a gate on bytes, or an exception.** -/
theorem toOption_step (s : List UInt8) (g : Gate) :
    (step ⟨s⟩ g).toOption.map BitVector.data =
      if g.InRange (8 * s.length) then some (g.applyBytes s) else none := by
  rcases g.opcode_cases with h | h | h | h | h
  · rw [if_pos (Gate.inRange_nop h), step, if_pos h, Gate.applyBytes, if_pos h]
    rfl
  · have hne : g.opcode ≠ OP_NOP := by rw [h]; decide
    rw [Gate.ite_inRange hne (by rw [h]; decide), Gate.controls_not h, step, if_neg hne, if_pos h]
    refine (toOption_flip ⟨s⟩ g.target true).trans (if_congr ?_ rfl rfl)
    simp
  · have hne : g.opcode ≠ OP_NOP := by rw [h]; decide
    rw [Gate.ite_inRange hne (by rw [h]; decide), Gate.controls_cnot h, step, if_neg hne,
      if_neg (by rw [h]; decide), if_pos h]
    by_cases ha : g.ctrlA < 8 * s.length
    · rw [BitVector.get_of_lt ha]
      refine (toOption_flip ⟨s⟩ g.target (wires s g.ctrlA)).trans (if_congr ?_ ?_ rfl)
      all_goals simp [ha]
    · rw [BitVector.get_of_ge ha, if_neg (by simp [ha])]
      rfl
  · have hne : g.opcode ≠ OP_NOP := by rw [h]; decide
    rw [Gate.ite_inRange hne h.le, Gate.controls_toffoli h, step, if_neg hne,
      if_neg (by rw [h]; decide), if_neg (by rw [h]; decide), if_pos h]
    by_cases ha : g.ctrlA < 8 * s.length
    · by_cases hb : g.ctrlB < 8 * s.length
      · have hand := toNat_and (wires s g.ctrlA) (wires s g.ctrlB)
        rw [BitVector.get_of_lt ha, BitVector.get_of_lt hb]
        refine Eq.trans ?_ ((toOption_flip ⟨s⟩ g.target (wires s g.ctrlA && wires s g.ctrlB)).trans
          (if_congr ?_ ?_ rfl))
        · rw [← hand]
          rfl
        · simp [ha, hb]
        · simp
      · rw [BitVector.get_of_lt ha, BitVector.get_of_ge hb, if_neg (by simp [hb])]
        rfl
    · rw [BitVector.get_of_ge ha, if_neg (by simp [ha])]
      rfl
  · unfold OP_TOFFOLI at h
    rw [if_neg (Gate.not_inRange h), step, if_neg (by unfold OP_NOP; omega),
      if_neg (by unfold OP_NOT; omega), if_neg (by unfold OP_CNOT; omega),
      if_neg (by unfold OP_TOFFOLI; omega)]
    rfl

/-- The loop of `run`, its exceptions forgotten. -/
theorem toOption_foldlM_step : ∀ (gates : List Gate) (s : List UInt8),
    (gates.foldlM step (⟨s⟩ : BitVector)).toOption.map BitVector.data =
      Lib.run (fun s g => (step ⟨s⟩ g).toOption.map BitVector.data) s gates
  | [], _ => rfl
  | g :: gates, s => by
      rw [List.foldlM_cons, run_cons]
      cases step ⟨s⟩ g with
      | error e => rfl
      | ok s' => exact toOption_foldlM_step gates s'.data

/-- **A run raises no exception exactly when every gate is in range, and then it computes the
    meaning of the gate list.** -/
theorem run_ok_iff {gates : List Gate} {x y : List UInt8} : run gates x = .ok y ↔
    (∀ g ∈ gates, g.InRange (8 * x.length)) ∧ y.length = x.length ∧
      wires y = simulate gates (wires x) := by
  rw [← run_applyBytes toOption_step, ← toOption_foldlM_step]
  unfold run
  cases gates.foldlM step (⟨x⟩ : BitVector) with
  | error e => exact iff_of_false (fun h => by cases h) (fun h => by cases h)
  | ok s => exact ⟨fun h => congrArg some (Except.ok.inj h), fun h => congrArg _ (Option.some.inj h)⟩

end Spec

end GroverTax.Python
