/-
  File:      GroverTax/Kickmix/Fuzz.lean
  Subject:   Register input and output and the verdict on one fuzz case: `load_register`,
             `read_register` and `check_case` of src/kickmix/src/lib.rs.

  A `u128` is a natural number below `2 ^ 128`. A shift by 128 places or more panics.
-/
import GroverTax.Kickmix.Sim

namespace GroverTax.Kickmix

/-! ## 1. Registers -/

/-- The loop of `load_register`, from member `j` on. -/
def loadMembers (value : ℕ) : ℕ → List ℕ → State → Option State
  | _, [], s => some s
  | j, qidx :: members, s =>
      if j < 128 then do loadMembers value (j + 1) members (← s.writeQubit qidx (value.testBit j))
      else none

def loadRegister (s : State) (circuit : Circuit) (register value : ℕ) : Option State :=
  match circuit.registers[register]? with
  | none => some s
  | some members => loadMembers value 0 members s

/-- The loop of `read_register`, from member `j` on. -/
def readMembers (s : State) : ℕ → List ℕ → ℕ → Option ℕ
  | _, [], value => some value
  | j, qidx :: members, value => do
      if ← s.readQubit qidx then
        if j < 128 then readMembers s (j + 1) members (value ||| 1 <<< j) else none
      else readMembers s (j + 1) members value

def readRegister (s : State) (circuit : Circuit) (register : ℕ) : Option ℕ :=
  match circuit.registers[register]? with
  | none => some 0
  | some members => readMembers s 0 members 0

/-! ## 2. The verdict -/

structure FuzzCase where
  inputs : List ℕ
  outputs : List ℕ
  deriving DecidableEq, Repr

inductive FuzzFailure where
  | wrongOutput (register expected got : ℕ)
  | unclearedAncilla (qubit : ℕ)
  | invertedPhase
  deriving DecidableEq, Repr

/-- `Circuit::register_qubits`. -/
def registerQubits (circuit : Circuit) : List Bool :=
  (circuit.registers.toList.flatMap Prod.snd).foldl (fun isMember q => isMember.set q true)
    (List.replicate circuit.numQubits false)

/-- The first loop: the inputs, in ascending register order. -/
def loadInputs (circuit : Circuit) (case : FuzzCase) : List (ℕ × ℕ) → State → Option State
  | [], s => some s
  | (reg, i) :: rest, s => do
      loadInputs circuit case rest (← loadRegister s circuit reg (case.inputs.getD i 0))

/-- The low `width` bits of a `u128`. -/
def outputMask (width : ℕ) : ℕ := if width ≥ 128 then 2 ^ 128 - 1 else 1 <<< width - 1

/-- The second loop: the first register with a wrong output. -/
def checkOutputs (circuit : Circuit) (case : FuzzCase) (s : State) :
    List (ℕ × ℕ) → Option (Option FuzzFailure)
  | [] => some none
  | (reg, i) :: rest => do
      let width := (← circuit.registers[reg]?).length
      let expected := case.outputs.getD i 0 &&& outputMask width
      let got ← readRegister s circuit reg
      if got ≠ expected then return some (.wrongOutput reg expected got)
      else checkOutputs circuit case s rest

/-- The third loop: the first qubit that is on and in no register. -/
def unclearedAncilla (circuit : Circuit) (s : State) : Option ℕ :=
  (s.qubits.zipIdx.find? fun (on, qubit) => on && !(registerQubits circuit).getD qubit false).map
    Prod.snd

def checkCase {M : Type} [MeasureSource M] (circuit : Circuit) (case : FuzzCase) (m : M) :
    Option (Option FuzzFailure) := do
  let keys := circuit.registers.keys.zipIdx
  let s ← loadInputs circuit case keys (State.new circuit.numQubits circuit.numBits)
  let (s, _) ← run circuit s m
  match ← checkOutputs circuit case s keys with
  | some failure => return some failure
  | none =>
      match unclearedAncilla circuit s with
      | some qubit => return some (.unclearedAncilla qubit)
      | none => return if s.phase then some .invertedPhase else none

end GroverTax.Kickmix
