/-
  File:      GroverTax/Kickmix/Parse.lean
  Subject:   The parser of src/kickmix/src/lib.rs, `Circuit::parse`.

  A text is the list of its Unicode scalar values. The parser has three outcomes: a circuit, a
  `ParseError`, or a panic -- `Outcome` is the monad of the three. The panics are
  `str::split_at(1)` inside a character of more than one byte, and the addition `max_qubit + 1` at
  the largest `isize`.

  The loop over the targets of a line is split in two: parsing them (which can fail), then the
  running maxima (which cannot).
-/
import GroverTax.Kickmix.Syntax
import GroverTax.Lib.Text

namespace GroverTax.Kickmix

open GroverTax.Lib

/-! ## 1. Characters and numerals -/

/-- `char::is_whitespace`: the property White_Space of Unicode. -/
def isWhitespace (c : Char) : Bool :=
  let n := c.toNat
  (0x09 ≤ n && n ≤ 0x0D) || n == 0x20 || n == 0x85 || n == 0xA0 || n == 0x1680 ||
    (0x2000 ≤ n && n ≤ 0x200A) || n == 0x2028 || n == 0x2029 || n == 0x202F || n == 0x205F ||
    n == 0x3000

def isAsciiUppercase (c : Char) : Bool := 'A' ≤ c && c ≤ 'Z'

def isAsciiDigit (c : Char) : Bool := '0' ≤ c && c ≤ '9'

/-- The value of a string of decimal digits. -/
def digitsValue (s : List Char) : ℕ := s.foldl (fun n c => 10 * n + (c.toNat - '0'.toNat)) 0

/-- `str::parse` of an unsigned type of `size` values: an optional `+`, then digits. -/
def parseUnsigned (size : ℕ) (s : List Char) : Option ℕ :=
  let digits := match s with
    | '+' :: rest => rest
    | _ => s
  if digits ≠ [] ∧ digits.all isAsciiDigit ∧ digitsValue digits < size then
    some (digitsValue digits)
  else none

/-- `str::parse::<usize>`. -/
def parseUsize (s : List Char) : Option ℕ := parseUnsigned usizeSize s

/-- `usize as isize`. -/
def asIsize (n : ℕ) : ℤ := if n < 2 ^ 63 then n else n - 2 ^ 64

/-! ## 2. Lines and tokens -/

/-- The lines from the pieces between newlines: a last piece that is empty is no line, and only a
    line that a newline ends loses a carriage return. -/
def linesOf : List (List Char) → List (List Char)
  | [] => []
  | [last] => if last = [] then [] else [last]
  | l :: ls => (if l.getLast? = some '\r' then l.dropLast else l) :: linesOf ls

/-- `str::lines`. -/
def lines (text : List Char) : List (List Char) := linesOf (text.splitOn '\n')

/-- `str::split_whitespace`. -/
def splitWhitespace (s : List Char) : List (List Char) := tokens isWhitespace s

/-- `raw.split('#').next().unwrap_or("").trim()`. -/
def stripComment (raw : List Char) : List Char := trim isWhitespace (raw.takeWhile (· ≠ '#'))

/-! ## 3. The parser -/

/-- A computation that may return an error, or panic. -/
abbrev Outcome (α : Type) := ExceptT ParseError Option α

/-- The computation that panics. -/
def Outcome.panics {α : Type} : Outcome α := (none : Option (Except ParseError α))

def fail {α : Type} (lineno : ℕ) (message : ParseMessage) : Outcome α := throw ⟨lineno, message⟩

def isValidName : List Char → Bool
  | [] => false
  | c :: cs => isAsciiUppercase c && cs.all fun c => isAsciiUppercase c || isAsciiDigit c || c == '_'

/-- `token.split_at(1)` panics when byte 1 is not the end of the first character. -/
def parseTarget (token : List Char) (lineno : ℕ) : Outcome Target :=
  match token with
  | [] => .panics
  | kind :: rest =>
      if kind.utf8Size ≠ 1 then .panics
      else match parseUsize rest with
        | none => fail lineno (.malformedTarget (String.ofList token))
        | some id =>
            if kind = 'q' then return .qubit id
            else if kind = 'b' then return .bit id
            else if kind = 'r' then return .register id
            else fail lineno (.malformedTarget (String.ofList token))

/-- The word `if`. -/
def ifToken : List Char := ['i', 'f']

def splitCondition (rest : List (List Char)) (lineno : ℕ) :
    Outcome (List (List Char) × Option ℕ) :=
  match rest.dropWhile (· ≠ ifToken) with
  | [] => return (rest, none)
  | _ :: [token] => do
      match ← parseTarget token lineno with
      | .bit b => return (rest.takeWhile (· ≠ ifToken), some b)
      | other => fail lineno (.conditionNotBit other)
  | _ :: cond => fail lineno (.conditionArity (cond.map String.ofList))

/-- The state of the loop of `Circuit::parse`. -/
structure ParseState where
  instructions : List Instruction := []
  registers : Std.ExtTreeMap ℕ (List ℕ) := ∅
  maxQubit : ℤ := -1
  maxBit : ℤ := -1

/-- `registers.entry(r).or_default()`. -/
def entryOrDefault (registers : Std.ExtTreeMap ℕ (List ℕ)) (r : ℕ) : Std.ExtTreeMap ℕ (List ℕ) :=
  registers.alter r fun members => some (members.getD [])

/-- `registers.entry(r).or_default().push(q)`. -/
def entryPush (registers : Std.ExtTreeMap ℕ (List ℕ)) (r q : ℕ) : Std.ExtTreeMap ℕ (List ℕ) :=
  registers.alter r fun members => some (members.getD [] ++ [q])

section Entry

variable {registers : Std.ExtTreeMap ℕ (List ℕ)} {r k q q' : ℕ} {members : List ℕ}

theorem exists_of_mem_getD (h : q ∈ registers[k]?.getD []) :
    ∃ old, registers[k]? = some old ∧ q ∈ old := by
  cases hg : registers[k]? with
  | none =>
    rw [hg] at h
    cases h
  | some old =>
    rw [hg] at h
    exact ⟨old, rfl, h⟩

theorem mem_of_entryOrDefault (h : (entryOrDefault registers k)[r]? = some members)
    (hq : q ∈ members) : ∃ old, registers[r]? = some old ∧ q ∈ old := by
  rw [entryOrDefault, Std.ExtTreeMap.getElem?_alter] at h
  split_ifs at h with hk
  · obtain rfl := compare_eq_iff_eq.mp hk
    cases h
    exact exists_of_mem_getD hq
  · exact ⟨_, h, hq⟩

theorem mem_of_entryPush (h : (entryPush registers k q')[r]? = some members) (hq : q ∈ members) :
    (∃ old, registers[r]? = some old ∧ q ∈ old) ∨ q = q' := by
  rw [entryPush, Std.ExtTreeMap.getElem?_alter] at h
  split_ifs at h with hk
  · obtain rfl := compare_eq_iff_eq.mp hk
    cases h
    rcases List.mem_append.mp hq with hold | hnew
    · exact Or.inl (exists_of_mem_getD hold)
    · exact Or.inr (List.mem_singleton.mp hnew)
  · exact Or.inl ⟨_, h, hq⟩

end Entry

def updateRegisters (name : String) (targets : List Target)
    (registers : Std.ExtTreeMap ℕ (List ℕ)) (maxQubit : ℤ) (lineno : ℕ) :
    Outcome (Std.ExtTreeMap ℕ (List ℕ) × ℤ) :=
  if name = "REGISTER" then
    match targets with
    | [.register r] => return (entryOrDefault registers r, maxQubit)
    | _ => fail lineno .registerOperand
  else if name = "APPEND_TO_REGISTER" then
    match targets with
    | [.qubit q, .register r] => return (entryPush registers r q, max maxQubit (asIsize q))
    -- bit members are not recorded
    | [.bit _, .register r] => return (entryOrDefault registers r, maxQubit)
    | _ => fail lineno .appendOperand
  else return (registers, maxQubit)

/-- `max_qubit.max(q as isize)` for a qubit target. -/
def bumpQubit (maxQubit : ℤ) : Target → ℤ
  | .qubit q => max maxQubit (asIsize q)
  | _ => maxQubit

/-- `max_bit.max(b as isize)` for a bit target. -/
def bumpBit (maxBit : ℤ) : Target → ℤ
  | .bit b => max maxBit (asIsize b)
  | _ => maxBit

/-- One turn of the loop. -/
def parseLine (st : ParseState) (raw : List Char) (lineno : ℕ) : Outcome ParseState :=
  let code := stripComment raw
  if code.isEmpty then return st
  else match splitWhitespace code with
    | [] => .panics
    | name :: rest => do
        if !isValidName name then fail lineno (.malformedName (String.ofList name))
        let (targetToks, condition) ← splitCondition rest lineno
        let targets ← targetToks.mapM fun tok => parseTarget tok lineno
        let maxQubit := targets.foldl bumpQubit st.maxQubit
        let maxBit := targets.foldl bumpBit st.maxBit
        let maxBit := match condition with
          | none => maxBit
          | some b => max maxBit (asIsize b)
        let (registers, maxQubit) ←
          updateRegisters (String.ofList name) targets st.registers maxQubit lineno
        return { instructions := st.instructions ++ [⟨String.ofList name, targets, condition⟩]
                 registers := registers, maxQubit := maxQubit, maxBit := maxBit }

/-- The loop over the lines, `lineno` being the number of the next one. -/
def parseLines (st : ParseState) (lineno : ℕ) : List (List Char) → Outcome ParseState
  | [] => return st
  | raw :: rest => do parseLines (← parseLine st raw lineno) (lineno + 1) rest

/-- `(max + 1) as usize`, with the overflow check of the addition. -/
def countOf (max : ℤ) : Outcome ℕ := if max + 1 < 2 ^ 63 then return (max + 1).toNat else .panics

def parse (text : List Char) : Outcome Circuit := do
  let st ← parseLines {} 1 (lines text)
  return { instructions := st.instructions, registers := st.registers
           numQubits := ← countOf st.maxQubit, numBits := ← countOf st.maxBit }

end GroverTax.Kickmix
