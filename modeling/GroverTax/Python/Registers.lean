/-
  File:      GroverTax/Python/Registers.lean
  Subject:   src/python/grover_tax/registers.py: the state of the two registers of an adder, and its
             test cases.

  A state is written one qubit at a time, member `j` of a register carrying bit `j` of its value,
  and read the same way. A raised exception is an error value, a `dict` the list of its items. The
  layout is the `register_layout` of src/python/grover_tax/kmx.py, in the order of the register
  ids.
-/
import GroverTax.Python.FiatShamir
import GroverTax.Python.Kmx
import GroverTax.Python.SimReference

namespace GroverTax.Python

open GroverTax.Lib

/-! ## 1. States -/

/-- `register_layout`: `r0`, `r1` and so on, each with its members. -/
def registerLayout (circuit : KmxCircuit) : List (List Char × List ℕ) :=
  circuit.registers.toList.map fun p => ('r' :: Nat.toDigits 10 p.1, p.2)

/-- `_ACC_REGISTER` and `_OFFSET_REGISTER`, by their names in a layout. -/
def ACC_REGISTER : List Char := ['r', '0']
def OFFSET_REGISTER : List Char := ['r', '1']

def minStateBytes (circuit : KmxCircuit) : ℕ := (circuit.numQubits + 8 - 1) / 8

inductive RegisterError where
  /-- KeyError of `layout[register]` -/
  | key (register : List Char)
  /-- IndexError or ValueError of `BitVector.set` -/
  | set (e : SimError)
  deriving DecidableEq, Repr

/-- `bv.set(qubit_index, (residue >> j) & 1)`. -/
def encodeMember (residue : ℕ) (bv : BitVector) (member : ℕ × ℕ) : Except SimError BitVector :=
  bv.set member.1 (residue >>> member.2 &&& 1)

/-- One turn of the loop over the values. -/
def encodeRegister (layout : List (List Char × List ℕ)) (bv : BitVector)
    (entry : List Char × ℕ) : Except RegisterError BitVector :=
  match layout.lookup entry.1 with
  | none => .error (.key entry.1)
  | some members =>
      let width := members.length
      let residue := if width = 0 then 0 else entry.2 &&& (1 <<< width - 1)
      (members.zipIdx.foldlM (encodeMember residue) bv).mapError .set

def encodeRegisters (values : List (List Char × ℕ)) (layout : List (List Char × List ℕ))
    (numBytes : ℕ) : Except RegisterError (List UInt8) := do
  let bv ← values.foldlM (encodeRegister layout) ⟨List.replicate numBytes 0⟩
  return bv.data

/-- `value |= bv.get(qubit_index) << j`. -/
def decodeMember (bv : BitVector) (value : ℕ) (member : ℕ × ℕ) : Except SimError ℕ := do
  return value ||| (← bv.get member.1) <<< member.2

def decodeRegisters (state : List UInt8) (layout : List (List Char × List ℕ)) :
    Except SimError (List (List Char × ℕ)) :=
  layout.mapM fun entry => do
    return (entry.1, ← entry.2.zipIdx.foldlM (decodeMember ⟨state⟩) 0)

/-! ## 2. Test cases -/

structure AdderCase where
  x : ℕ
  y : ℕ
  sumOut : ℕ
  width : ℕ
  deriving DecidableEq, Repr

inductive AdderCaseError where
  /-- iadd_test_cases: width must be positive, got {width} -/
  | width (width : ℤ)
  /-- iadd_test_cases: count must be positive, got {count} -/
  | count (count : ℤ)
  /-- ValueError of `XOF.read` -/
  | read (e : CaseError)
  deriving DecidableEq, Repr

/-- `iadd_test_cases`; its loop draws the operands as the one of `derive_cases` does. -/
def iaddTestCases (digest : List UInt8 → ℕ → List UInt8) (width count : ℤ) (seed : List UInt8) :
    Except AdderCaseError (List AdderCase) :=
  if width ≤ 0 then .error (.width width)
  else if count ≤ 0 then .error (.count count)
  else do
    let nbytes := (width + 8 - 1) / 8
    let mask := 1 <<< width.toNat - 1
    let modulus := 1 <<< width.toNat
    let operands ← (caseLoop digest nbytes mask count.toNat { seed := seed } []).mapError .read
    return operands.map fun p => ⟨p.1, p.2, (p.1 + p.2) % modulus, width.toNat⟩

end GroverTax.Python
