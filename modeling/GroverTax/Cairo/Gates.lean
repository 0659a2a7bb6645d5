/-
  File:      GroverTax/Cairo/Gates.lean
  Subject:   Gate validation and execution, src/stwo-side/cairo/src/gates.cairo.

  wide.cairo repeats this file over 512 wires. What the two share is written once, with the bound
  and the accessors of the state as parameters; each file's functions are those at its own values.

  * `checkGate_eq_some` -- validation is `Gate.InRange` and `Gate.Canonical`;
  * `stepWith_spec` -- on validated gates a step does not panic and is `Gate.apply`;
  * `injective_iff` -- a validated gate list loses no state exactly when no gate controls its own
    target; `cnotSelf_not_injective` is one that does.
-/
import GroverTax.Cairo.Limbs

namespace GroverTax.Cairo

open GroverTax.Lib GroverTax.Gtv1

/-! ## 1. Validation -/

def rangeCheckOpcode (opcode : ℕ) : Option Unit := if opcode > OP_TOFFOLI then none else some ()

/-- A slot that must carry the sentinel. -/
def requireNoCtrl (wire : ℕ) : Option Unit := if wire ≠ NO_CTRL then none else some ()

/-- `range_check_wire`, with the number of wires as a parameter. -/
def checkWire (bound wire : ℕ) (isRequiredReal : Bool) : Option Unit :=
  if wire = NO_CTRL then if isRequiredReal then none else some ()
  else if wire ≥ bound then none else some ()

/-- `range_check_gate`, with the number of wires as a parameter. -/
def checkGate (bound : ℕ) (gate : Gate) : Option Unit := do
  rangeCheckOpcode gate.opcode
  if gate.opcode = OP_NOP then
    requireNoCtrl gate.target
    requireNoCtrl gate.ctrlA
    requireNoCtrl gate.ctrlB
  else if gate.opcode = OP_NOT then
    checkWire bound gate.target true
    requireNoCtrl gate.ctrlA
    requireNoCtrl gate.ctrlB
  else if gate.opcode = OP_CNOT then
    checkWire bound gate.target true
    checkWire bound gate.ctrlA true
    requireNoCtrl gate.ctrlB
  else
    checkWire bound gate.target true
    checkWire bound gate.ctrlA true
    checkWire bound gate.ctrlB true

def rangeCheckWire (wire : ℕ) (isRequiredReal : Bool) : Option Unit :=
  checkWire BITS_PER_VALUE wire isRequiredReal

def rangeCheckGate (gate : Gate) : Option Unit := checkGate BITS_PER_VALUE gate

section Validation

variable {bound wire : ℕ} {g : Gate}

theorem bind_unit_eq_some {x y : Option Unit} :
    (x >>= fun _ => y) = some () ↔ x = some () ∧ y = some () := by
  cases x <;> simp

theorem rangeCheckOpcode_eq_some {opcode : ℕ} :
    rangeCheckOpcode opcode = some () ↔ opcode ≤ OP_TOFFOLI := by
  unfold rangeCheckOpcode
  split_ifs with h
  · simp [Nat.not_le.mpr h]
  · simp [Nat.not_lt.mp h]

theorem requireNoCtrl_eq_some : requireNoCtrl wire = some () ↔ wire = NO_CTRL := by
  unfold requireNoCtrl
  split_ifs with h
  · exact iff_of_false (fun e => by cases e) h
  · exact iff_of_true rfl (not_not.mp h)

/-- A required wire is real: the sentinel is beyond the bound. -/
theorem checkWire_eq_some (hb : bound ≤ NO_CTRL) :
    checkWire bound wire true = some () ↔ wire < bound := by
  unfold checkWire
  by_cases h1 : wire = NO_CTRL
  · rw [if_pos h1, if_pos rfl, h1]
    exact iff_of_false (fun e => by cases e) (Nat.not_lt.mpr hb)
  · rw [if_neg h1]
    by_cases h2 : wire ≥ bound
    · rw [if_pos h2]
      exact iff_of_false (fun e => by cases e) (Nat.not_lt.mpr h2)
    · rw [if_neg h2]
      exact iff_of_true rfl (Nat.not_le.mp h2)

/-- **Validation** accepts exactly the gates whose used wires are in range and whose ignored slots
    carry the sentinel. -/
theorem checkGate_eq_some (hb : bound ≤ NO_CTRL) :
    checkGate bound g = some () ↔ g.InRange bound ∧ g.Canonical := by
  unfold checkGate
  rw [bind_unit_eq_some, rangeCheckOpcode_eq_some]
  rcases g.opcode_cases with h | h | h | h | h
  · have hle : g.opcode ≤ OP_TOFFOLI := by rw [h]; decide
    rw [if_pos h, bind_unit_eq_some, bind_unit_eq_some, requireNoCtrl_eq_some,
      requireNoCtrl_eq_some, requireNoCtrl_eq_some, Gate.canonical_nop h]
    exact and_congr_left fun _ => iff_of_true hle (Gate.inRange_nop h)
  · have hle : g.opcode ≤ OP_TOFFOLI := by rw [h]; decide
    have hne : g.opcode ≠ OP_NOP := by rw [h]; decide
    rw [if_neg hne, if_pos h, bind_unit_eq_some, bind_unit_eq_some, requireNoCtrl_eq_some,
      requireNoCtrl_eq_some, checkWire_eq_some hb, Gate.canonical_not h,
      Gate.inRange_of_ne hne hle, Gate.controls_not h]
    simp [hle]
  · have hle : g.opcode ≤ OP_TOFFOLI := by rw [h]; decide
    have hne : g.opcode ≠ OP_NOP := by rw [h]; decide
    rw [if_neg hne, if_neg (by rw [h]; decide), if_pos h, bind_unit_eq_some, bind_unit_eq_some,
      requireNoCtrl_eq_some, checkWire_eq_some hb, checkWire_eq_some hb, Gate.canonical_cnot h,
      Gate.inRange_of_ne hne hle, Gate.controls_cnot h]
    simp [hle, and_assoc]
  · have hne : g.opcode ≠ OP_NOP := by rw [h]; decide
    rw [if_neg hne, if_neg (by rw [h]; decide), if_neg (by rw [h]; decide), bind_unit_eq_some,
      bind_unit_eq_some, checkWire_eq_some hb, checkWire_eq_some hb, checkWire_eq_some hb,
      Gate.inRange_of_ne hne h.le, Gate.controls_toffoli h]
    simp [h.le, Gate.canonical_toffoli h]
  · exact iff_of_false (fun e => Nat.not_lt.mpr e.1 h) fun e => Gate.not_inRange h e.1

end Validation

/-! ## 2. Execution -/

def isEq (a b : ℕ) : ℕ := if a = b then 1 else 0

def computeNewTarget (opcode t a b : ℕ) : Option ℕ := do
  let isNot := isEq opcode OP_NOT
  let isCnot := isEq opcode OP_CNOT
  let isToff := isEq opcode OP_TOFFOLI
  let sum ← checkedAdd 32 (← checkedMul 32 isNot 1) (← checkedMul 32 isCnot a)
  let delta ← checkedAdd 32 sum (← checkedMul 32 isToff (← checkedMul 32 a b))
  checkedSub (← checkedAdd 32 t delta) (← checkedMul 32 (← checkedMul 32 2 t) delta)

section Execution

variable {S : Type} (get : S → ℕ → Option ℕ) (set : S → ℕ → ℕ → Option S)

/-- `read_bit_or_zero`, with the accessor as a parameter. -/
def readOrZero (s : S) (i : ℕ) : Option ℕ := if i = NO_CTRL then some 0 else get s i

/-- `step`, with the accessors as parameters. -/
def stepWith (s : S) (gate : Gate) : Option S := do
  let tBit ← if gate.opcode = OP_NOP ∨ gate.target = NO_CTRL then some 0 else get s gate.target
  let aBit ← readOrZero get s gate.ctrlA
  let bBit ← readOrZero get s gate.ctrlB
  let newT ← computeNewTarget gate.opcode tBit aBit bBit
  if gate.opcode = OP_NOP then some s else set s gate.target newT

end Execution

def readBitOrZero (s : State) (i : ℕ) : Option ℕ := readOrZero getBit s i

def step (s : State) (gate : Gate) : Option State := stepWith getBit setBit s gate

/-! ## 3. A step is a gate -/

section Refinement

variable {S : Type} {get : S → ℕ → Option ℕ} {set : S → ℕ → ℕ → Option S} {inv : S → Prop}
  {rep : S → ℕ → Bool} {n : ℕ} {s : S} {g : Gate}

/-- The branch-free formula, opcode by opcode. -/
theorem computeNewTarget_not (t a b : Bool) :
    computeNewTarget OP_NOT t.toNat a.toNat b.toNat = some (t ^^ true).toNat := by
  cases t <;> cases a <;> cases b <;> rfl

theorem computeNewTarget_cnot (t a b : Bool) :
    computeNewTarget OP_CNOT t.toNat a.toNat b.toNat = some (t ^^ a).toNat := by
  cases t <;> cases a <;> cases b <;> rfl

theorem computeNewTarget_toffoli (t a b : Bool) :
    computeNewTarget OP_TOFFOLI t.toNat a.toNat b.toNat = some (t ^^ (a && b)).toNat := by
  cases t <;> cases a <;> cases b <;> rfl

theorem readOrZero_noCtrl : readOrZero get s NO_CTRL = some false.toNat := rfl

theorem readOrZero_of_lt (h : LawfulBits get set inv rep n) (hn : n ≤ NO_CTRL) (hs : inv s) {i : ℕ}
    (hi : i < n) : readOrZero get s i = some (rep s i).toNat := by
  rw [readOrZero, if_neg (by omega), h.get_lt s i hs hi]

/-- The three opcodes that write: the controls are read, and the formula flips the target where
    all are on. -/
theorem stepWith_of_ne (h : LawfulBits get set inv rep n) (hn : n ≤ NO_CTRL) (hs : inv s)
    (hr : g.InRange n) (hne : g.opcode ≠ OP_NOP) {a b : Bool}
    (ha : readOrZero get s g.ctrlA = some a.toNat) (hb : readOrZero get s g.ctrlB = some b.toNat)
    (hcalc : ∀ t : Bool, computeNewTarget g.opcode t.toNat a.toNat b.toNat =
      some (t ^^ g.controls.all (rep s)).toNat) :
    ∃ s', stepWith get set s g = some s' ∧ inv s' ∧ rep s' = g.apply (rep s) := by
  have ht : g.target < n := hr.wires g.target (Gate.used_of_ne hne ▸ List.mem_cons_self)
  obtain ⟨s', hset, hinv, hrep⟩ :=
    h.set_lt s g.target (rep s g.target ^^ g.controls.all (rep s)) hs ht
  refine ⟨s', ?_, hinv, hrep.trans (Gate.apply_of_ne hne _).symm⟩
  have hnt : ¬ (g.opcode = OP_NOP ∨ g.target = NO_CTRL) := fun e => by
    rcases e with e | e
    · exact hne e
    · omega
  rw [stepWith, if_neg hnt, h.get_lt s g.target hs ht, ha, hb]
  simp only [Option.bind_eq_bind, Option.bind_some, hcalc, if_neg hne]
  exact hset

/-- **A step on a validated gate** does not panic and is the gate. -/
theorem stepWith_spec (h : LawfulBits get set inv rep n) (hn : n ≤ NO_CTRL) (hs : inv s)
    (hr : g.InRange n) (hc : g.Canonical) :
    ∃ s', stepWith get set s g = some s' ∧ inv s' ∧ rep s' = g.apply (rep s) := by
  rcases g.opcode_cases with e | e | e | e | e
  · obtain ⟨-, ha, hb⟩ := (Gate.canonical_nop e).mp hc
    refine ⟨s, ?_, hs, (Gate.apply_nop e _).symm⟩
    rw [stepWith, if_pos (Or.inl e), ha, hb, readOrZero_noCtrl, e]
    rfl
  · have hne : g.opcode ≠ OP_NOP := by rw [e]; decide
    obtain ⟨ha, hb⟩ := (Gate.canonical_not e).mp hc
    refine stepWith_of_ne h hn hs hr hne (ha ▸ readOrZero_noCtrl) (hb ▸ readOrZero_noCtrl) fun t => ?_
    rw [e, Gate.controls_not e]
    exact computeNewTarget_not t false false
  · have hne : g.opcode ≠ OP_NOP := by rw [e]; decide
    have hw := ((Gate.inRange_of_ne hne hr.opcode).mp hr).2
    rw [Gate.controls_cnot e, List.forall_mem_singleton] at hw
    have hb := (Gate.canonical_cnot e).mp hc
    refine stepWith_of_ne h hn hs hr hne (readOrZero_of_lt h hn hs hw) (hb ▸ readOrZero_noCtrl)
      fun t => ?_
    rw [e, Gate.controls_cnot e, computeNewTarget_cnot]
    simp
  · have hne : g.opcode ≠ OP_NOP := by rw [e]; decide
    have hw := ((Gate.inRange_of_ne hne hr.opcode).mp hr).2
    rw [Gate.controls_toffoli e, List.forall_mem_cons, List.forall_mem_singleton] at hw
    refine stepWith_of_ne h hn hs hr hne (readOrZero_of_lt h hn hs hw.1)
      (readOrZero_of_lt h hn hs hw.2) fun t => ?_
    rw [e, Gate.controls_toffoli e, computeNewTarget_toffoli]
    simp
  · exact (Gate.not_inRange e hr).elim

/-- **Execution of a validated gate list** does not panic and is the meaning of the list. -/
theorem run_stepWith (h : LawfulBits get set inv rep n) (hn : n ≤ NO_CTRL) :
    ∀ {gates : List Gate} {s : S}, (∀ g ∈ gates, checkGate n g = some ()) → inv s →
      ∃ s', run (stepWith get set) s gates = some s' ∧ inv s' ∧ rep s' = simulate gates (rep s)
  | [], s, _, hs => ⟨s, rfl, hs, rfl⟩
  | g :: gates, s, hg, hs => by
      obtain ⟨hr, hc⟩ := (checkGate_eq_some hn).mp (hg g List.mem_cons_self)
      obtain ⟨s1, h1, hs1, e1⟩ := stepWith_spec h hn hs hr hc
      obtain ⟨s', h2, hs', e2⟩ :=
        run_stepWith h hn (fun g' hg' => hg g' (List.mem_cons_of_mem _ hg')) hs1
      exact ⟨s', run_cons_some.mpr ⟨s1, h1, h2⟩, hs', by rw [e2, e1]; rfl⟩

end Refinement

/-! ## 4. Reversibility -/

section Reversible

variable {gates : List Gate}

/-- A validated gate list runs without a panic, on wires as `simulate` says. -/
theorem run_step (h : ∀ g ∈ gates, rangeCheckGate g = some ()) {s : State} (hs : s.WF) :
    ∃ s', run step s gates = some s' ∧ s'.WF ∧ s'.wires = simulate gates s.wires :=
  run_stepWith lawfulBits (by decide) h hs

theorem inRange_of_rangeCheck (h : ∀ g ∈ gates, rangeCheckGate g = some ()) :
    ∀ g ∈ gates, g.InRange BITS_PER_VALUE :=
  fun g hg => ((checkGate_eq_some (by decide)).mp (h g hg)).1

/-- Folding `step` over the list maps no two well-formed states to the same state. -/
def Injective (gates : List Gate) : Prop := ∀ s s' out : State, s.WF → s'.WF →
  run step s gates = some out → run step s' gates = some out → s = s'

/-- **A validated gate list loses no state exactly when no gate controls its own target.** -/
theorem injective_iff (gates : List Gate) (h : ∀ g ∈ gates, rangeCheckGate g = some ()) :
    Injective gates ↔ ∀ g ∈ gates, g.target ∉ g.controls := by
  rw [show (∀ g ∈ gates, g.target ∉ g.controls) ↔ ∀ g ∈ gates, g.Reversible from Iff.rfl,
    ← injOn_simulate (inRange_of_rangeCheck h)]
  constructor
  · intro hinj b hb b' hb' e
    obtain ⟨s, hs, rfl⟩ := exists_wires hb
    obtain ⟨s', hs', rfl⟩ := exists_wires hb'
    obtain ⟨out, hout, hwf, hw⟩ := run_step h hs
    obtain ⟨out', hout', hwf', hw'⟩ := run_step h hs'
    have eout : out = out' := hwf.ext hwf' (hw.trans (Eq.trans e hw'.symm))
    rw [hinj s s' out hs hs' hout (eout ▸ hout')]
  · intro hinj s s' out hs hs' hout hout'
    obtain ⟨t, ht, -, hw⟩ := run_step h hs
    obtain ⟨t', ht', -, hw'⟩ := run_step h hs'
    cases hout.symm.trans ht
    cases hout'.symm.trans ht'
    exact hs.ext hs' (hinj hs.mem_states hs'.mem_states (hw.symm.trans hw'))

/-- A half adder: the carry, then the sum. -/
def halfAdder : List Gate := [⟨OP_TOFFOLI, 2, 0, 1⟩, ⟨OP_CNOT, 1, 0, NO_CTRL⟩]

theorem halfAdder_injective : Injective halfAdder :=
  (injective_iff halfAdder (by decide)).mpr (by decide)

/-- `CNOT` of wire `0` onto itself. -/
def cnotSelf : Gate := ⟨OP_CNOT, 0, 0, NO_CTRL⟩

/-- **The gate passes validation and clears its wire.** -/
theorem cnotSelf_not_injective : rangeCheckGate cnotSelf = some () ∧ ¬ Injective [cnotSelf] := by
  refine ⟨by decide, fun h => ?_⟩
  have hwf : ({ zeroState with l0 := 1 } : State).WF := by
    intro j hj
    unfold LIMBS at hj
    interval_cases j <;> decide
  exact absurd (h zeroState { zeroState with l0 := 1 } zeroState zeroState_wf hwf (by decide)
    (by decide)) (by decide)

end Reversible

end GroverTax.Cairo
