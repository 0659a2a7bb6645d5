/-
  File:      GroverTax/Kickmix/Statement.lean
  Subject:   The Tier-2 statement of src/kickmix/src/statement.rs: `case_measure` and
             `run_statement`.
-/
import GroverTax.Kickmix.FiatShamir
import GroverTax.Kickmix.Fuzz
import GroverTax.Kickmix.Resource

namespace GroverTax.Kickmix

structure StatementParams where
  repetitions : ℕ
  width : ℕ
  numSamples : ℕ
  demanded : DemandedBounds
  deriving DecidableEq, Repr

inductive StatementError where
  | fuzzFailed (caseIndex : ℕ) (failure : FuzzFailure)
  | resourceViolations (violations : List Violation)
  deriving DecidableEq, Repr

/-- The measurement trajectory of a case: the first eight bytes of the hash, and its index. -/
def caseMeasure (circuitHash : List UInt8) (index : ℕ) : SplitMix64 :=
  let seed := (circuitHash.take 8).zipIdx.foldl
    (fun seed (b, i) => seed ||| (b.toUInt64 <<< UInt64.ofNat (8 * i))) (0 : UInt64)
  .new (seed ^^^ (UInt64.ofNat index * 0x9E3779B97F4A7C15))

/-- The case of an operand pair: `r0 := (x + K*y) mod 2^width`, `r1 := y`. -/
def statementCase (repetitions mask x y : ℕ) : FuzzCase where
  inputs := [x, y]
  outputs := [(x + repetitions * y % 2 ^ 128) % 2 ^ 128 &&& mask, y]

/-- The loop over the cases, from index `i` on: `none` is a panic, `some (some e)` a failure. -/
def checkCases (circuit : Circuit) (circuitHash : List UInt8) (repetitions mask : ℕ) :
    ℕ → List (ℕ × ℕ) → Option (Option StatementError)
  | _, [] => some none
  | i, (x, y) :: cases => do
      match ← checkCase circuit (statementCase repetitions mask x y) (caseMeasure circuitHash i) with
      | some failure => return some (.fuzzFailed i failure)
      | none => checkCases circuit circuitHash repetitions mask (i + 1) cases

def runStatement (circuit : Circuit) (circuitHash : List UInt8) (params : StatementParams) :
    Option (Except StatementError (List ℕ)) := do
  let modulus := if params.width ≥ 128 then 0 else 1 <<< params.width
  let mask := (modulus + 2 ^ 128 - 1) % 2 ^ 128
  let cases ← deriveCases circuitHash params.width params.numSamples
  match ← checkCases circuit circuitHash params.repetitions mask 0 cases with
  | some e => return .error e
  | none =>
      let counts := countResources circuit params.numSamples
      let outputs := publicOutputs counts
      let violations := certify counts (outputs.getD 4 0) params.demanded
      if violations ≠ [] then return .error (.resourceViolations violations)
      else return .ok outputs

end GroverTax.Kickmix
