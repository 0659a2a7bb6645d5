/-
  File:      GroverTax/Cairo/Kickmix.lean
  Subject:   The kickmix simulator of src/stwo-side/cairo/src/kickmix.cairo.

  A `u8` or `u32` is a natural number whose arithmetic is checked, a `u64` is a `UInt64` where the
  source computes modulo `2 ^ 64`. A `Felt252Dict` is a total function: a key that was never
  written holds `0`. The loop counters `i` stay below a `u32` length, so their increments do not
  overflow and the loops are folds.
-/
import GroverTax.Kickmix.Resource
import GroverTax.Lib.Checked
import GroverTax.Lib.Run
import Mathlib.Logic.Function.Basic

namespace GroverTax.Cairo.Kickmix

open GroverTax.Lib

/-! ## 1. Opcodes -/

def OP_X : ℕ := 1
def OP_CX : ℕ := 2
def OP_CCX : ℕ := 3
def OP_Z : ℕ := 4
def OP_CZ : ℕ := 5
def OP_CCZ : ℕ := 6
def OP_NEG : ℕ := 7
def OP_SWAP : ℕ := 8
def OP_R : ℕ := 9
def OP_HMR : ℕ := 10
def OP_BIT_INVERT : ℕ := 11
def OP_BIT_STORE0 : ℕ := 12
def OP_BIT_STORE1 : ℕ := 13
def OP_PUSH_CONDITION : ℕ := 14
def OP_POP_CONDITION : ℕ := 15

def NO_TARGET : ℕ := 0xFFFFFFFF
def NO_COND : ℕ := 0xFFFFFFFF

def TWO64 : ℕ := 0x10000000000000000
def GAMMA : UInt64 := 0x9E3779B97F4A7C15
def MUL1 : UInt64 := 0xBF58476D1CE4E5B9
def MUL2 : UInt64 := 0x94D049BB133111EB

structure Inst where
  opcode : ℕ
  t0 : ℕ
  t1 : ℕ
  t2 : ℕ
  cond : ℕ
  deriving DecidableEq, Repr

/-! ## 2. The generator -/

structure Rng where
  state : UInt64
  deriving DecidableEq, Repr

def rngNew (seed : UInt64) : Rng := ⟨seed⟩

/-- `try_into().unwrap()` from `u128` to `u64`. -/
def intoU64 (n : ℕ) : Option UInt64 := if n < 2 ^ 64 then some (UInt64.ofNat n) else none

def wadd64 (a b : UInt64) : Option UInt64 := do
  let s ← checkedAdd 128 a.toNat b.toNat
  intoU64 (s % TWO64)

def wmul64 (a b : UInt64) : Option UInt64 := do
  let p ← checkedMul 128 a.toNat b.toNat
  intoU64 (p % TWO64)

def nextU64 (rng : Rng) : Option (UInt64 × Rng) := do
  let state ← wadd64 rng.state GAMMA
  let z := state
  let z ← wmul64 (z ^^^ (z / 0x40000000)) MUL1
  let z ← wmul64 (z ^^^ (z / 0x8000000)) MUL2
  return (z ^^^ (z / 0x80000000), ⟨state⟩)

def nextBit (rng : Rng) : Option (ℕ × Rng) := do
  let (v, rng) ← nextU64 rng
  return (← tryInto 8 (v % 2).toNat, rng)

/-! ## 3. States -/

/-- The condition stack is `cond` at `0 .. condLen`. -/
structure State where
  qubits : ℕ → ℕ
  bits : ℕ → ℕ
  phase : ℕ
  cond : ℕ → ℕ
  condLen : ℕ

def newState : State := ⟨fun _ => 0, fun _ => 0, 0, fun _ => 0, 0⟩

namespace State

def getQ (s : State) (idx : ℕ) : ℕ := s.qubits idx

def getB (s : State) (idx : ℕ) : ℕ := s.bits idx

/-- `s.qubits.insert(idx, v)`. -/
def insertQ (s : State) (idx v : ℕ) : State := { s with qubits := Function.update s.qubits idx v }

/-- `s.bits.insert(idx, v)`. -/
def insertB (s : State) (idx v : ℕ) : State := { s with bits := Function.update s.bits idx v }

/-- `s.qubits.insert(idx, 1 - s.qubits.get(idx))`. -/
def flipQ (s : State) (idx : ℕ) : Option State := do
  return s.insertQ idx (← checkedSub 1 (s.getQ idx))

/-- `s.phase = 1 - s.phase`. -/
def flipPhase (s : State) : Option State := do
  return { s with phase := ← checkedSub 1 s.phase }

def active (s : State) (cond : ℕ) : Bool :=
  let ok := (List.range s.condLen).foldl (fun ok i => if s.cond i = 0 then false else ok) true
  if ok && cond ≠ NO_COND then s.getB cond = 1 else ok

end State

/-! ## 4. Steps -/

/-- The part of `step` behind the test of `active`. -/
def exec (s : State) (rng : Rng) (inst : Inst) : Option (State × Rng) :=
  let op := inst.opcode
  if op = OP_X then do
    return (← s.flipQ inst.t0, rng)
  else if op = OP_CX then
    if s.getQ inst.t0 = 1 then do return (← s.flipQ inst.t1, rng) else some (s, rng)
  else if op = OP_CCX then
    if s.getQ inst.t0 = 1 ∧ s.getQ inst.t1 = 1 then do return (← s.flipQ inst.t2, rng)
    else some (s, rng)
  else if op = OP_Z then
    if s.getQ inst.t0 = 1 then do return (← s.flipPhase, rng) else some (s, rng)
  else if op = OP_CZ then
    if s.getQ inst.t0 = 1 ∧ s.getQ inst.t1 = 1 then do return (← s.flipPhase, rng)
    else some (s, rng)
  else if op = OP_CCZ then
    if s.getQ inst.t0 = 1 ∧ s.getQ inst.t1 = 1 ∧ s.getQ inst.t2 = 1 then do
      return (← s.flipPhase, rng)
    else some (s, rng)
  else if op = OP_NEG then do return (← s.flipPhase, rng)
  else if op = OP_SWAP then
    let a := s.getQ inst.t0
    let b := s.getQ inst.t1
    some ((s.insertQ inst.t0 b).insertQ inst.t1 a, rng)
  else if op = OP_R then
    if s.getQ inst.t0 = 1 then do
      -- a trajectory bit is drawn only when the qubit is on
      let (m, rng) ← nextBit rng
      let s ← if m = 1 then s.flipPhase else some s
      return (s.insertQ inst.t0 0, rng)
    else some (s.insertQ inst.t0 0, rng)
  else if op = OP_HMR then do
    let (m, rng) ← nextBit rng
    let s ← if s.getQ inst.t0 = 1 ∧ m = 1 then s.flipPhase else some s
    return ((s.insertB inst.t1 m).insertQ inst.t0 0, rng)
  else if op = OP_BIT_INVERT then do
    return (s.insertB inst.t0 (← checkedSub 1 (s.getB inst.t0)), rng)
  else if op = OP_BIT_STORE0 then some (s.insertB inst.t0 0, rng)
  else if op = OP_BIT_STORE1 then some (s.insertB inst.t0 1, rng)
  else none

def step (s : State) (rng : Rng) (inst : Inst) : Option (State × Rng) :=
  if inst.opcode = OP_PUSH_CONDITION then do
    let condLen ← checkedAdd 32 s.condLen 1
    return ({ s with cond := Function.update s.cond s.condLen (s.getB inst.cond)
                     condLen := condLen }, rng)
  else if inst.opcode = OP_POP_CONDITION then
    some (if 0 < s.condLen then { s with condLen := s.condLen - 1 } else s, rng)
  else if s.active inst.cond then exec s rng inst
  else some (s, rng)

/-- `run`; the loop counter is a `u32`, so the program has fewer than `2 ^ 32` records. -/
def run (s : State) (rng : Rng) (program : List Inst) : Option (State × Rng) :=
  Lib.run (fun (sr : State × Rng) inst => step sr.1 sr.2 inst) (s, rng) program

/-! ## 5. Resource certification -/

open GroverTax.Kickmix (ResourceCounts DemandedBounds)

def SENTINEL : ℕ := 42

/-- The records are those of src/kickmix/src/resource.rs, field by field. `0` accepts. -/
def certify (counts : ResourceCounts) (sentinel : ℕ) (demanded : DemandedBounds) : ℕ :=
  if counts.numSamples < demanded.numSamples then 1
  else if counts.maxQubitCount > demanded.maxQubitCount then 2
  else if counts.maxNonCliffordCount > demanded.maxNonCliffordCount then 3
  else if counts.maxCircuitInstructions > demanded.maxCircuitInstructions then 4
  else if sentinel ≠ SENTINEL then 5
  else 0

end GroverTax.Cairo.Kickmix
