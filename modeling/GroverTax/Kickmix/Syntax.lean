/-
  File:      GroverTax/Kickmix/Syntax.lean
  Subject:   The data of src/kickmix/src/lib.rs: targets, instructions, circuits, parse errors.

  A `usize` is a natural number; the bound `usizeMax` appears where the source tests or overflows.
  A `BTreeMap` is the library's ordered map, a `Vec` a list. A computation that panics has the
  value `none`.

  The source matches on an instruction's name as a string. `Op` lists the names it knows, and
  `Op.ofName` is that match, made once: `ofName_eq_some` says it is exact.
-/
import Mathlib.Data.Finmap
import Mathlib.Tactic.Common

namespace GroverTax.Kickmix

/-- The largest `usize` of a 64-bit build, plus one. -/
def usizeSize : ℕ := 2 ^ 64

inductive Target where
  | qubit (id : ℕ)
  | bit (id : ℕ)
  | register (id : ℕ)
  deriving DecidableEq, Repr

structure Instruction where
  name : String
  targets : List Target
  condition : Option ℕ
  deriving DecidableEq, Repr

/-- `registers` maps a register id to its qubits, least significant first. -/
structure Circuit where
  instructions : List Instruction := []
  registers : Std.ExtTreeMap ℕ (List ℕ) := ∅
  numQubits : ℕ := 0
  numBits : ℕ := 0

/-- The texts of a `ParseError`, with the data they print. -/
inductive ParseMessage where
  /-- malformed instruction name {name:?} -/
  | malformedName (name : String)
  /-- `if` condition must name exactly one bit, got {cond:?} -/
  | conditionArity (cond : List String)
  /-- `if` condition must be a bit, got {other:?} -/
  | conditionNotBit (other : Target)
  /-- malformed target {token:?} (want q<N>/b<N>/r<N>) -/
  | malformedTarget (token : String)
  /-- REGISTER takes exactly one register operand -/
  | registerOperand
  /-- APPEND_TO_REGISTER takes <qubit|bit> <register> -/
  | appendOperand
  deriving DecidableEq, Repr

structure ParseError where
  line : ℕ
  message : ParseMessage
  deriving DecidableEq, Repr

/-! ## Instruction names -/

inductive Op where
  | pushCondition | popCondition
  | register | appendToRegister | debugPrint
  | x | cx | ccx | z | cz | ccz | neg | swap | r | hmr
  | bitInvert | bitStore0 | bitStore1
  deriving DecidableEq, Repr

def Op.name : Op → String
  | .pushCondition => "PUSH_CONDITION"
  | .popCondition => "POP_CONDITION"
  | .register => "REGISTER"
  | .appendToRegister => "APPEND_TO_REGISTER"
  | .debugPrint => "DEBUG_PRINT"
  | .x => "X"
  | .cx => "CX"
  | .ccx => "CCX"
  | .z => "Z"
  | .cz => "CZ"
  | .ccz => "CCZ"
  | .neg => "NEG"
  | .swap => "SWAP"
  | .r => "R"
  | .hmr => "HMR"
  | .bitInvert => "BIT_INVERT"
  | .bitStore0 => "BIT_STORE0"
  | .bitStore1 => "BIT_STORE1"

def Op.all : List Op :=
  [.pushCondition, .popCondition, .register, .appendToRegister, .debugPrint, .x, .cx, .ccx, .z,
    .cz, .ccz, .neg, .swap, .r, .hmr, .bitInvert, .bitStore0, .bitStore1]

/-- The arm a name selects; `none` is the arm of the unknown names. -/
def Op.ofName (name : String) : Option Op := Op.all.find? fun op => op.name = name

theorem Op.ofName_name (op : Op) : Op.ofName op.name = some op := by cases op <;> decide

theorem Op.ofName_eq_some {name : String} {op : Op} : Op.ofName name = some op ↔ op.name = name := by
  constructor
  · intro h
    simpa using List.find?_some h
  · rintro rfl
    exact op.ofName_name

end GroverTax.Kickmix
