/-
  File:      GroverTax/Sp1/Program.lean
  Subject:   The SP1 guest, src/third_party/sp1/program/src/main.rs.

  A panic is `none`; a `usize` has 64 bits and no computation here leaves them. The guest's inputs
  are the circuit bytes and the cases it reads from its stdin, its result is what it commits.

  * `parseGtv1_eq` -- the parser checks the magic and the exact length, nothing else;
  * `simulate_eq_some` -- a simulation completes exactly on gates in range;
  * `main_isSome` -- when the guest completes.
-/
import GroverTax.Gtv1.Bytes
import GroverTax.Gtv1.Format

namespace GroverTax.Sp1

open GroverTax.Lib GroverTax.Gtv1

/-! ## 1. The source -/

/-- `u16::from_le_bytes([bytes[off], bytes[off + 1]])`. -/
def u16FromLeBytes (bytes : List UInt8) (off : ℕ) : Option ℕ := do
  let b0 ← bytes[off]?
  let b1 ← bytes[off + 1]?
  return b0.toNat + b1.toNat * 0x100

def u32FromLeBytes (bytes : List UInt8) (off : ℕ) : Option ℕ := do
  let b0 ← bytes[off]?
  let b1 ← bytes[off + 1]?
  let b2 ← bytes[off + 2]?
  let b3 ← bytes[off + 3]?
  return b0.toNat + b1.toNat * 0x100 + b2.toNat * 0x10000 + b3.toNat * 0x1000000

/-- One round of the loop of `parse_gtv1`; the padding byte is not looked at. -/
def parseGate (bytes : List UInt8) (i : ℕ) : Option Gate := do
  let off := 8 + i * 8
  let opcode ← bytes[off]?
  let target ← u16FromLeBytes bytes (off + 2)
  let ctrlA ← u16FromLeBytes bytes (off + 4)
  let ctrlB ← u16FromLeBytes bytes (off + 6)
  return ⟨opcode.toNat, target, ctrlA, ctrlB⟩

/-- The inner `Option` is the source's result, the outer one a panic. -/
def parseGtv1 (bytes : List UInt8) : Option (Option (List Gate)) :=
  if bytes.length < 8 then some none
  else if bytes.take 4 ≠ MAGIC then some none
  else do
    let nGates ← u32FromLeBytes bytes 4
    let expectedLen := 8 + nGates * 8
    if bytes.length ≠ expectedLen then some none
    else
      let gates ← (List.range nGates).mapM (parseGate bytes)
      return some gates

def getBit (state : List UInt8) (i : ℕ) : Option UInt8 := do
  return ((← state[i / 8]?) >>> UInt8.ofNat (i % 8)) &&& 1

def setBit (state : List UInt8) (i : ℕ) (v : UInt8) : Option (List UInt8) := do
  let byte ← state[i / 8]?
  if v = 1 then return state.set (i / 8) (byte ||| (1 : UInt8) <<< UInt8.ofNat (i % 8))
  else return state.set (i / 8) (byte &&& ~~~((1 : UInt8) <<< UInt8.ofNat (i % 8)))

/-- One round of the loop of `simulate`. -/
def stepGate (state : List UInt8) (gate : Gate) : Option (List UInt8) :=
  match gate.opcode with
  | 0 => some state
  | 1 => do
      let v := (← getBit state gate.target) ^^^ 1
      setBit state gate.target v
  | 2 => do
      let a ← getBit state gate.ctrlA
      let v := (← getBit state gate.target) ^^^ a
      setBit state gate.target v
  | 3 => do
      let a ← getBit state gate.ctrlA
      let b ← getBit state gate.ctrlB
      let v := (← getBit state gate.target) ^^^ (a &&& b)
      setBit state gate.target v
  | _ => none

def simulate (gates : List Gate) (x : List UInt8) : Option (List UInt8) := run stepGate x gates

/-- What the guest commits, in order. -/
structure PublicValues where
  commitment : List UInt8
  nCases : ℕ
  deriving DecidableEq, Repr

/-- The loop over the cases. -/
def checkCases (gates : List Gate) : List (List UInt8 × List UInt8) → Option Unit
  | [] => some ()
  | (x, yExpected) :: cases => do
      let yGot ← simulate gates x
      if yGot ≠ yExpected then none else checkCases gates cases

/-- `sha256` is the digest of the `sha2` crate. -/
def main (sha256 : List UInt8 → List UInt8) (circuitBytes : List UInt8)
    (cases : List (List UInt8 × List UInt8)) : Option PublicValues := do
  let values := ⟨sha256 circuitBytes, cases.length⟩
  match ← parseGtv1 circuitBytes with
  | none => none
  | some gates =>
      checkCases gates cases
      return values

/-! ## 2. The parser -/

section Parser

variable {bytes : List UInt8} {i off v : ℕ}

theorem getElem?_of_lt (h : i < bytes.length) : bytes[i]? = some (bytes.getD i 0) := by
  rw [List.getElem?_eq_getElem h, List.getD_eq_getElem _ _ h]

theorem u16FromLeBytes_of_lt (h : off + 1 < bytes.length) :
    u16FromLeBytes bytes off = some (le16 bytes off) := by
  rw [u16FromLeBytes, getElem?_of_lt (Nat.lt_of_succ_lt h), getElem?_of_lt h]
  rfl

theorem u32FromLeBytes_of_lt (h : off + 3 < bytes.length) :
    u32FromLeBytes bytes off = some (le32 bytes off) := by
  rw [u32FromLeBytes, getElem?_of_lt (by omega : off < _),
    getElem?_of_lt (by omega : off + 1 < _), getElem?_of_lt (by omega : off + 2 < _),
    getElem?_of_lt h]
  rfl

theorem parseGate_of_le (h : gateOff i + 8 ≤ bytes.length) :
    parseGate bytes i = some (gateAt bytes i) := by
  have hoff : 8 + i * 8 = gateOff i := rfl
  unfold parseGate
  dsimp only
  rw [hoff, getElem?_of_lt (by omega), u16FromLeBytes_of_lt (by omega),
    u16FromLeBytes_of_lt (by omega), u16FromLeBytes_of_lt (by omega)]
  rfl

/-- **The parser** never panics, and takes the strings with the magic and the declared length. -/
theorem parseGtv1_eq (bytes : List UInt8) : parseGtv1 bytes =
    some (if bytes.take 4 = MAGIC ∧ bytes.length = declaredLength bytes then some (gatesOf bytes)
      else none) := by
  unfold parseGtv1
  by_cases h8 : bytes.length < 8
  · have hne : ¬ bytes.length = declaredLength bytes := by
      unfold declaredLength gateOff HEADER_BYTES
      omega
    rw [if_pos h8, if_neg fun h => hne h.2]
  · rw [if_neg h8]
    by_cases hmagic : bytes.take 4 = MAGIC
    · rw [if_neg (not_not.mpr hmagic), u32FromLeBytes_of_lt (by omega)]
      show (if bytes.length ≠ 8 + numGates bytes * 8 then _ else _) = _
      have hdecl : 8 + numGates bytes * 8 = declaredLength bytes := rfl
      rw [hdecl]
      by_cases hlen : bytes.length = declaredLength bytes
      · have hf : Framed bytes := ⟨hmagic, hlen.ge⟩
        have hmap : (List.range (numGates bytes)).mapM (parseGate bytes) = some (gatesOf bytes) :=
          mapM_eq_map fun i hi => parseGate_of_le (hf.gateOff_le (List.mem_range.mp hi))
        rw [if_neg (not_not.mpr hlen), if_pos ⟨hmagic, hlen⟩]
        show (List.range (numGates bytes)).mapM (parseGate bytes) >>= _ = _
        rw [hmap]
        rfl
      · rw [if_pos hlen, if_neg fun h => hlen h.2]
    · rw [if_pos hmagic, if_neg fun h => hmagic h.1]

end Parser

/-! ## 3. The simulator -/

section Simulator

variable {s : List UInt8} {i : ℕ}

theorem getBit_of_lt (h : i < 8 * s.length) : getBit s i = some (wires s i).toUInt8 := by
  have hk : i % 8 < 8 := Nat.mod_lt _ (by decide)
  rw [getBit, getElem?_of_lt (by omega), wires, ← shiftRight_and_one _ hk]
  rfl

theorem getBit_of_ge (h : ¬ i < 8 * s.length) : getBit s i = none := by
  rw [getBit, List.getElem?_eq_none (by omega)]
  rfl

theorem setBit_of_lt (h : i < 8 * s.length) (v : Bool) :
    setBit s i v.toUInt8 = some (writeWire s i v) := by
  rw [setBit, getElem?_of_lt (by omega)]
  cases v <;> rfl

theorem toUInt8_xor (a b : Bool) : a.toUInt8 ^^^ b.toUInt8 = (a ^^ b).toUInt8 := by
  cases a <;> cases b <;> rfl

theorem toUInt8_and (a b : Bool) : a.toUInt8 &&& b.toUInt8 = (a && b).toUInt8 := by
  cases a <;> cases b <;> rfl

/-- The last two lines of every branch. -/
theorem flip_eq (s : List UInt8) (t : ℕ) (c : Bool) :
    (do let v := (← getBit s t) ^^^ c.toUInt8; setBit s t v) =
      if t < 8 * s.length then some (writeWire s t (wires s t ^^ c)) else none := by
  by_cases h : t < 8 * s.length
  · rw [getBit_of_lt h, if_pos h, ← setBit_of_lt h, ← toUInt8_xor]
    rfl
  · rw [getBit_of_ge h, if_neg h]
    rfl

/-- **A step is a gate on bytes, or a panic.** -/
theorem stepGate_eq (s : List UInt8) (g : Gate) : stepGate s g =
    if g.InRange (8 * s.length) then some (g.applyBytes s) else none := by
  rcases g.opcode_cases with h | h | h | h | h
  · rw [if_pos (Gate.inRange_nop h), Gate.applyBytes, if_pos h, stepGate,
      show g.opcode = 0 from h]
    rfl
  · have hne : g.opcode ≠ OP_NOP := by rw [h]; decide
    rw [Gate.ite_inRange hne (by rw [h]; decide), Gate.controls_not h, stepGate,
      show g.opcode = 1 from h]
    refine (flip_eq s g.target true).trans (if_congr ?_ rfl rfl)
    simp
  · have hne : g.opcode ≠ OP_NOP := by rw [h]; decide
    rw [Gate.ite_inRange hne (by rw [h]; decide), Gate.controls_cnot h, stepGate,
      show g.opcode = 2 from h]
    by_cases ha : g.ctrlA < 8 * s.length
    · rw [getBit_of_lt ha]
      refine (flip_eq s g.target (wires s g.ctrlA)).trans (if_congr ?_ ?_ rfl)
      all_goals simp [ha]
    · rw [getBit_of_ge ha, if_neg (by simp [ha])]
      rfl
  · have hne : g.opcode ≠ OP_NOP := by rw [h]; decide
    rw [Gate.ite_inRange hne h.le, Gate.controls_toffoli h, stepGate, show g.opcode = 3 from h]
    by_cases ha : g.ctrlA < 8 * s.length
    · by_cases hb : g.ctrlB < 8 * s.length
      · have hand := toUInt8_and (wires s g.ctrlA) (wires s g.ctrlB)
        rw [getBit_of_lt ha, getBit_of_lt hb]
        refine Eq.trans ?_ ((flip_eq s g.target (wires s g.ctrlA && wires s g.ctrlB)).trans
          (if_congr ?_ ?_ rfl))
        · rw [← hand]
          rfl
        · simp [ha, hb]
        · simp
      · rw [getBit_of_lt ha, getBit_of_ge hb, if_neg (by simp [hb])]
        rfl
    · rw [getBit_of_ge ha, if_neg (by simp [ha])]
      rfl
  · obtain ⟨n, hn⟩ : ∃ n, g.opcode = n + 4 := ⟨g.opcode - 4, by unfold OP_TOFFOLI at h; omega⟩
    rw [if_neg (Gate.not_inRange h), stepGate, hn]
    rfl

/-- **A simulation completes exactly on gates in range.** -/
theorem simulate_eq_some {gates : List Gate} {x y : List UInt8} : simulate gates x = some y ↔
    (∀ g ∈ gates, g.InRange (8 * x.length)) ∧ y.length = x.length ∧
      wires y = Gtv1.simulate gates (wires x) := run_applyBytes stepGate_eq

end Simulator

/-! ## 4. The guest -/

section Guest

variable {gates : List Gate} {sha256 : List UInt8 → List UInt8} {circuitBytes : List UInt8}

theorem checkCases_eq_some : ∀ {cases : List (List UInt8 × List UInt8)},
    checkCases gates cases = some () ↔ ∀ p ∈ cases, simulate gates p.1 = some p.2
  | [] => by simp [checkCases]
  | (x, y) :: cases => by
      rw [List.forall_mem_cons, ← checkCases_eq_some, checkCases]
      cases h : simulate gates x with
      | none => simp
      | some yGot =>
        by_cases hy : yGot = y
        · simp [hy]
        · simp [hy]

/-- **When the guest completes.** -/
theorem main_isSome {cases : List (List UInt8 × List UInt8)} :
    (∃ values, main sha256 circuitBytes cases = some values) ↔
      (circuitBytes.take 4 = MAGIC ∧ circuitBytes.length = declaredLength circuitBytes) ∧
        ∀ p ∈ cases, simulate (gatesOf circuitBytes) p.1 = some p.2 := by
  rw [← checkCases_eq_some, main, parseGtv1_eq]
  by_cases h : circuitBytes.take 4 = MAGIC ∧ circuitBytes.length = declaredLength circuitBytes
  · rw [if_pos h]
    cases hc : checkCases (gatesOf circuitBytes) cases with
    | none => simp [hc]
    | some u => simp [h, hc]
  · rw [if_neg h]
    simp [h]

end Guest

end GroverTax.Sp1
