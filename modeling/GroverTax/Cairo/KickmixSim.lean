/-
  File:      GroverTax/Cairo/KickmixSim.lean
  Subject:   The Cairo kickmix simulator simulates the Rust one, instruction by instruction.

  * `wadd64_eq`, `wmul64_eq`, `nextU64_eq`, `nextBit_eq` -- the two generators are one;
  * `encode` -- the record of an instruction, as the Cairo module documents it; metadata has none;
  * `Agree` -- the simulation relation: the dictionaries hold the Rust vectors, the condition stack
    lies in `cond` at `0 .. condLen`;
  * `exec_agree`, `step_agree` -- one instruction; `run_agree` -- a program.
-/
import GroverTax.Cairo.Kickmix
import GroverTax.Kickmix.Safety
import Mathlib.Data.List.GetD

namespace GroverTax.Cairo.Kickmix

open GroverTax.Lib
open GroverTax.Kickmix (Op Instruction Target SplitMix64 MeasureSource q outputBit Exec Step)

/-! ## 1. The generators -/

theorem wadd64_eq (a b : UInt64) : wadd64 a b = some (a + b) := by
  have ha := a.toNat_lt
  have hb := b.toNat_lt
  unfold wadd64 intoU64
  rw [checkedAdd_of_lt (by omega)]
  have hm : (a.toNat + b.toNat) % TWO64 < 2 ^ 64 := Nat.mod_lt _ (by decide)
  simp only [Option.bind_eq_bind, Option.bind_some, if_pos hm, Option.some.injEq]
  apply UInt64.toNat.inj
  rw [UInt64.toNat_ofNat_of_lt' hm, UInt64.toNat_add]
  rfl

theorem wmul64_eq (a b : UInt64) : wmul64 a b = some (a * b) := by
  have ha := a.toNat_lt
  have hb := b.toNat_lt
  have hp : a.toNat * b.toNat < 2 ^ 128 := by
    calc a.toNat * b.toNat ≤ (2 ^ 64 - 1) * (2 ^ 64 - 1) :=
          Nat.mul_le_mul (by omega) (by omega)
      _ < 2 ^ 128 := by decide
  unfold wmul64 intoU64
  rw [checkedMul_of_lt hp]
  have hm : a.toNat * b.toNat % TWO64 < 2 ^ 64 := Nat.mod_lt _ (by decide)
  simp only [Option.bind_eq_bind, Option.bind_some, if_pos hm, Option.some.injEq]
  apply UInt64.toNat.inj
  rw [UInt64.toNat_ofNat_of_lt' hm, UInt64.toNat_mul]
  rfl

/-- A division by a power of two is a shift. -/
theorem div_eq_shiftRight (z d k : UInt64) (h : d.toNat = 2 ^ (k.toNat % 64)) : z / d = z >>> k := by
  apply UInt64.toNat.inj
  rw [UInt64.toNat_div, UInt64.toNat_shiftRight, Nat.shiftRight_eq_div_pow, h]

/-- **The generators agree**: value and state. -/
theorem nextU64_eq (r : SplitMix64) :
    nextU64 ⟨r.state⟩ = some (r.nextU64.1, ⟨r.nextU64.2.state⟩) := by
  simp only [nextU64, wadd64_eq, wmul64_eq, Option.bind_eq_bind, Option.bind_some,
    Option.pure_def, div_eq_shiftRight _ 0x40000000 30 rfl, div_eq_shiftRight _ 0x8000000 27 rfl,
    div_eq_shiftRight _ 0x80000000 31 rfl]
  rfl

/-- The low bit, by remainder and by mask. -/
theorem mod_two_eq_and_one (z : UInt64) : (z % 2).toNat = (z &&& 1 == 1).toNat := by
  have e1 : (z % 2).toNat = z.toNat % 2 := UInt64.toNat_mod _ _
  have e2 : (z &&& 1).toNat = z.toNat % 2 := by
    rw [UInt64.toNat_and, ← Nat.and_one_is_mod]
    rfl
  rw [e1]
  by_cases h : z &&& 1 = 1
  · rw [h] at e2
    rw [h, ← e2]
    rfl
  · have hne : z.toNat % 2 ≠ 1 := fun e => h (UInt64.toNat.inj (e2.trans e))
    rw [beq_false_of_ne h, Bool.toNat_false]
    omega

theorem nextBit_eq (r : SplitMix64) : nextBit ⟨r.state⟩ =
    some ((MeasureSource.nextBit r).1.toNat, ⟨(MeasureSource.nextBit r).2.state⟩) := by
  have hlt : (r.nextU64.1 &&& 1 == 1).toNat < 2 ^ 8 :=
    lt_of_le_of_lt (Bool.toNat_le _) (by decide)
  unfold nextBit
  rw [nextU64_eq, Option.bind_eq_bind, Option.bind_some]
  dsimp only
  rw [mod_two_eq_and_one, tryInto_of_lt hlt, GroverTax.Kickmix.nextBit_splitMix64]
  rfl

/-! ## 2. The encoding of a program -/

/-- The opcode of an instruction; metadata has none. -/
def opcode : Op → Option ℕ
  | .x => some OP_X
  | .cx => some OP_CX
  | .ccx => some OP_CCX
  | .z => some OP_Z
  | .cz => some OP_CZ
  | .ccz => some OP_CCZ
  | .neg => some OP_NEG
  | .swap => some OP_SWAP
  | .r => some OP_R
  | .hmr => some OP_HMR
  | .bitInvert => some OP_BIT_INVERT
  | .bitStore0 => some OP_BIT_STORE0
  | .bitStore1 => some OP_BIT_STORE1
  | .pushCondition => some OP_PUSH_CONDITION
  | .popCondition => some OP_POP_CONDITION
  | .register | .appendToRegister | .debugPrint => none

/-- The target slots of an instruction with valid operands: their number and their kinds. -/
def slots (op : Op) (t : List Target) : Option (List ℕ) :=
  match op with
  | .x | .z | .r => if t.length = 1 then do return [← q t 0] else none
  | .cx | .cz | .swap => if t.length = 2 then do return [← q t 0, ← q t 1] else none
  | .ccx | .ccz => if t.length = 3 then do return [← q t 0, ← q t 1, ← q t 2] else none
  | .hmr => if t.length = 2 then do return [← q t 0, ← outputBit t 1] else none
  | .bitInvert | .bitStore0 | .bitStore1 =>
      if t.length = 1 then do return [← outputBit t 0] else none
  | .neg | .pushCondition | .popCondition => if t.length = 0 then some [] else none
  | .register | .appendToRegister | .debugPrint => none

/-- The condition field. -/
def condField : Option ℕ → ℕ
  | none => NO_COND
  | some b => b

/-- The records of an instruction: one, or none for metadata. Unused target slots carry
    `NO_TARGET`, an absent condition `NO_COND`; every id is below them. -/
def encode (inst : Instruction) : Option (List Inst) :=
  match Op.ofName inst.name with
  | none => none
  | some op =>
      match opcode op with
      | none => some []
      | some code => do
          let ids ← slots op inst.targets
          if (∀ i ∈ ids, i < NO_TARGET) ∧ (∀ b ∈ inst.condition, b < NO_COND) then
            return [⟨code, ids.getD 0 NO_TARGET, ids.getD 1 NO_TARGET, ids.getD 2 NO_TARGET,
              condField inst.condition⟩]
          else none

/-- The records of a program. -/
def encodeProgram (insts : List Instruction) : Option (List Inst) := do
  return (← insts.mapM encode).flatten

/-- The record of an instruction that has one. -/
theorem encode_eq_some {inst : Instruction} {op : Op} {bs : List Inst} {code : ℕ}
    (hop : Op.ofName inst.name = some op) (hcode : opcode op = some code)
    (h : encode inst = some bs) : ∃ ids, slots op inst.targets = some ids ∧
      (∀ b, inst.condition = some b → b < NO_COND) ∧
      bs = [⟨code, ids.getD 0 NO_TARGET, ids.getD 1 NO_TARGET, ids.getD 2 NO_TARGET,
        condField inst.condition⟩] := by
  unfold encode at h
  rw [hop] at h
  simp only [hcode, Option.bind_eq_bind, Option.bind_eq_some_iff] at h
  obtain ⟨ids, hids, h⟩ := h
  split_ifs at h with hb
  cases h
  exact ⟨ids, hids, fun b e => hb.2 b e, rfl⟩

/-! ## 3. The relation -/

/-- **The two states agree.** -/
structure Agree (s : GroverTax.Kickmix.State) (c : State) : Prop where
  qubits : ∀ i, c.qubits i = (s.qubits.getD i false).toNat
  bits : ∀ i, c.bits i = (s.bits.getD i false).toNat
  phase : c.phase = s.phase.toNat
  condLen : c.condLen = s.condStack.length
  cond : ∀ i < s.condStack.length, c.cond i = (s.condStack.getD i false).toNat

section Agree

variable {s s' : GroverTax.Kickmix.State} {c : State}

theorem Agree.getQ (h : Agree s c) {i : ℕ} {v : Bool} (hv : s.readQubit i = some v) :
    c.getQ i = v.toNat := by
  have e : s.qubits.getD i false = v := by
    rw [List.getD_eq_getElem?_getD]
    exact congrArg (Option.getD · false) hv
  rw [State.getQ, h.qubits, e]

theorem Agree.getB (h : Agree s c) (b : ℕ) : c.getB b = (s.getBit b).toNat := h.bits b

theorem toNat_eq_one {v : Bool} : v.toNat = 1 ↔ v = true := by cases v <;> decide

/-- Both states write the same qubit. -/
theorem Agree.insertQ (h : Agree s c) {i : ℕ} {v : Bool} (hs : s.writeQubit i v = some s') :
    Agree s' (c.insertQ i v.toNat) := by
  unfold GroverTax.Kickmix.State.writeQubit at hs
  split_ifs at hs with hi
  cases hs
  refine ⟨fun j => ?_, h.bits, h.phase, h.condLen, h.cond⟩
  simp only [State.insertQ, Function.update_apply, List.getD_eq_getElem?_getD,
    List.getElem?_set, eq_comm (a := i)]
  split_ifs with hj
  · rfl
  · rw [h.qubits, List.getD_eq_getElem?_getD]

theorem Agree.insertB (h : Agree s c) {i : ℕ} {v : Bool} (hs : s.writeBit i v = some s') :
    Agree s' (c.insertB i v.toNat) := by
  unfold GroverTax.Kickmix.State.writeBit at hs
  split_ifs at hs with hi
  cases hs
  refine ⟨h.qubits, fun j => ?_, h.phase, h.condLen, h.cond⟩
  simp only [State.insertB, Function.update_apply, List.getD_eq_getElem?_getD,
    List.getElem?_set, eq_comm (a := i)]
  split_ifs with hj
  · rfl
  · rw [h.bits, List.getD_eq_getElem?_getD]

/-- A controlled flip: where the control is on both flip the target, elsewhere neither does. -/
theorem Agree.flipQ (h : Agree s c) {i : ℕ} {v : Bool} (hs : s.xorQubit i v = some s') :
    ∃ c', (if v = true then c.flipQ i else some c) = some c' ∧ Agree s' c' := by
  obtain ⟨w, hw, hs⟩ := Option.bind_eq_some_iff.mp hs
  cases v with
  | true =>
    refine ⟨_, ?_, h.insertQ hs⟩
    rw [if_pos rfl, State.flipQ, h.getQ hw]
    simp
  | false =>
    refine ⟨c, rfl, ?_⟩
    rw [Bool.xor_false] at hs
    unfold GroverTax.Kickmix.State.writeQubit at hs
    split_ifs at hs with hi
    cases hs
    have e : s.qubits.set i w = s.qubits := by
      refine List.ext_getElem? fun j => ?_
      rw [List.getElem?_set]
      split_ifs with hj
      · subst hj
        exact hw.symm
      · rfl
    refine ⟨fun j => ?_, h.bits, h.phase, h.condLen, h.cond⟩
    rw [e]
    exact h.qubits j

theorem Agree.flipPhase (h : Agree s c) (v : Bool) :
    ∃ c', (if v = true then c.flipPhase else some c) = some c' ∧ Agree (s.xorPhase v) c' := by
  cases v with
  | true =>
    refine ⟨{ c with phase := (!s.phase).toNat }, ?_, h.qubits, h.bits, ?_, h.condLen, h.cond⟩
    · rw [if_pos rfl, State.flipPhase, h.phase]
      simp
    · simp [GroverTax.Kickmix.State.xorPhase]
  | false =>
    refine ⟨c, rfl, h.qubits, h.bits, ?_, h.condLen, h.cond⟩
    simp [GroverTax.Kickmix.State.xorPhase, h.phase]

/-- A condition pushed on both stacks. -/
theorem Agree.push (h : Agree s c) (bit : ℕ) :
    Agree { s with condStack := s.condStack ++ [s.getBit bit] }
      { c with cond := Function.update c.cond c.condLen (c.getB bit), condLen := c.condLen + 1 } := by
  refine ⟨h.qubits, h.bits, h.phase, by simp [h.condLen], fun i hi => ?_⟩
  simp only [Function.update_apply, h.condLen]
  split_ifs with he
  · subst he
    rw [List.getD_append_right _ _ _ _ (le_refl _), Nat.sub_self, h.getB]
    rfl
  · have hi' : i < s.condStack.length := by
      rw [List.length_append, List.length_singleton] at hi
      omega
    rw [h.cond i hi', List.getD_append _ _ _ _ hi']

/-- A condition popped from both, if there is one. -/
theorem Agree.pop (h : Agree s c) : Agree { s with condStack := s.condStack.dropLast }
    (if 0 < c.condLen then { c with condLen := c.condLen - 1 } else c) := by
  by_cases hpos : 0 < c.condLen
  · rw [if_pos hpos]
    refine ⟨h.qubits, h.bits, h.phase, by simp [h.condLen], fun i hi => ?_⟩
    rw [List.length_dropLast] at hi
    rw [h.cond i (by omega), List.getD_eq_getElem _ _ (by omega),
      List.getD_eq_getElem _ _ (by rwa [List.length_dropLast]), List.getElem_dropLast]
  · have hnil : s.condStack = [] := by
      rw [h.condLen] at hpos
      exact List.length_eq_zero_iff.mp (by omega)
    rw [if_neg hpos]
    refine ⟨h.qubits, h.bits, h.phase, by simp [h.condLen, hnil], ?_⟩
    rw [hnil]
    simp

/-- The conjunction of qubits on both sides. -/
theorem Agree.allOn (h : Agree s c) : ∀ {is : List ℕ} {v : Bool}, s.allOn is = some v →
    ((∀ i ∈ is, c.getQ i = 1) ↔ v = true)
  | [], v, hv => by
      cases hv
      simp
  | i :: is, v, hv => by
      obtain ⟨w, hw, hv⟩ := Option.bind_eq_some_iff.mp hv
      rw [List.forall_mem_cons, h.getQ hw, toNat_eq_one]
      cases w with
      | true => simpa using h.allOn hv
      | false =>
        cases hv
        simp

theorem foldl_ok (f : ℕ → ℕ) : ∀ (is : List ℕ) (ok : Bool),
    is.foldl (fun ok i => if f i = 0 then false else ok) ok = (ok && is.all fun i => f i ≠ 0)
  | [], ok => by simp
  | i :: is, ok => by
      rw [List.foldl_cons, foldl_ok f is]
      by_cases hi : f i = 0
      · simp [hi]
      · simp [hi]

/-- **An instruction is active on both sides or on neither.** -/
theorem Agree.active (h : Agree s c) {condition : Option ℕ}
    (hc : ∀ b, condition = some b → b < NO_COND) :
    c.active (condField condition) = s.active condition := by
  have hstack : (List.range c.condLen).foldl (fun ok i => if c.cond i = 0 then false else ok) true =
      s.condStack.all id := by
    rw [foldl_ok, Bool.true_and, h.condLen, Bool.eq_iff_iff, List.all_eq_true, List.all_eq_true]
    constructor
    · intro hall v hv
      obtain ⟨i, hi, rfl⟩ := List.getElem_of_mem hv
      have := hall i (List.mem_range.mpr hi)
      rw [h.cond i hi, List.getD_eq_getElem _ _ hi] at this
      simpa using this
    · intro hall i hi
      have hi := List.mem_range.mp hi
      have := hall _ (List.getElem_mem hi)
      rw [h.cond i hi, List.getD_eq_getElem _ _ hi]
      simpa using this
  unfold State.active GroverTax.Kickmix.State.active
  rw [hstack]
  cases condition with
  | none => simp [condField]
  | some b =>
    have hb : b ≠ NO_COND := Nat.ne_of_lt (hc b rfl)
    cases s.condStack.all id with
    | false => simp
    | true =>
      simp only [condField, ne_eq, hb, not_false_eq_true, decide_true, Bool.and_self, if_true,
        Bool.true_and, h.getB]
      cases s.getBit b <;> rfl

end Agree

/-! ## 4. One instruction -/

section Step

variable {s s' : GroverTax.Kickmix.State} {c : State} {m m' : SplitMix64}

/-- A guarded update, with the generator carried along. -/
theorem ite_bind {p : Prop} [Decidable p] {x : Option State} {c c' : State} (rng : Rng)
    (h : (if p then x else some c) = some c') :
    (if p then (do return (← x, rng)) else some (c, rng)) = some (c', rng) := by
  split_ifs at h ⊢ with hp
  · rw [h]
    rfl
  · cases h
    rfl

/-- The same under qubits that are all on. -/
theorem Agree.controlled (hA : Agree s c) {is : List ℕ} {v : Bool} (hv : s.allOn is = some v)
    {x : Option State} {c' : State} (rng : Rng)
    (h : (if v = true then x else some c) = some c') :
    (if ∀ i ∈ is, c.getQ i = 1 then (do return (← x, rng)) else some (c, rng)) = some (c', rng) := by
  simp only [hA.allOn hv]
  exact ite_bind rng h

theorem outputBit_of_head {t : List Target} {b : ℕ} (h : t.head? = some (.bit b)) :
    outputBit t 0 = some b := by
  rw [outputBit, ← List.head?_eq_getElem?, h]

/-- R on a qubit that is on draws a trajectory bit. -/
theorem exec_r_on {c c1 : State} {r r' : Rng} {v : Bool} {t0 t1 t2 cond : ℕ}
    (hr : nextBit r = some (v.toNat, r')) (h : c.getQ t0 = 1)
    (hc : (if v = true then c.flipPhase else some c) = some c1) :
    exec c r ⟨OP_R, t0, t1, t2, cond⟩ = some (c1.insertQ t0 0, r') := by
  simp only [exec, OP_X, OP_CX, OP_CCX, OP_Z, OP_CZ, OP_CCZ, OP_NEG, OP_SWAP, OP_R,
    Nat.reduceEqDiff, if_false, if_true, h, hr, Option.bind_eq_bind, Option.bind_some]
  cases v with
  | true =>
    rw [if_pos rfl] at hc
    simp [hc]
  | false =>
    cases hc
    simp

/-- HMR draws a trajectory bit, kicks the phase, stores the bit and clears the qubit. -/
theorem exec_hmr {c c1 : State} {r r' : Rng} {v on : Bool} {t0 t1 t2 cond : ℕ}
    (hr : nextBit r = some (v.toNat, r')) (h : c.getQ t0 = on.toNat)
    (hc : (if (on && v) = true then c.flipPhase else some c) = some c1) :
    exec c r ⟨OP_HMR, t0, t1, t2, cond⟩ =
      some ((c1.insertB t1 v.toNat).insertQ t0 0, r') := by
  simp only [exec, OP_X, OP_CX, OP_CCX, OP_Z, OP_CZ, OP_CCZ, OP_NEG, OP_SWAP, OP_R, OP_HMR,
    Nat.reduceEqDiff, if_false, if_true, h, hr, Option.bind_eq_bind, Option.bind_some,
    toNat_eq_one]
  cases on <;> cases v <;> simp_all

section Slots

variable {p : Prop} [Decidable p] {o0 o1 o2 : Option ℕ} {a b d : ℕ} {ids : List ℕ}

/-- The slots of an instruction with one operand, of one with two, and of one with three. -/
theorem eq_of_one (h0 : o0 = some a)
    (h : (if p then do return [← o0] else none : Option (List ℕ)) = some ids) : ids = [a] := by
  rw [h0] at h
  split_ifs at h
  exact (Option.some.inj h).symm

theorem eq_of_two (h0 : o0 = some a) (h1 : o1 = some b)
    (h : (if p then do return [← o0, ← o1] else none : Option (List ℕ)) = some ids) :
    ids = [a, b] := by
  rw [h0, h1] at h
  split_ifs at h
  exact (Option.some.inj h).symm

theorem eq_of_three (h0 : o0 = some a) (h1 : o1 = some b) (h2 : o2 = some d)
    (h : (if p then do return [← o0, ← o1, ← o2] else none : Option (List ℕ)) = some ids) :
    ids = [a, b, d] := by
  rw [h0, h1, h2] at h
  split_ifs at h
  exact (Option.some.inj h).symm

end Slots

/-- **An active instruction does the same on both sides.** -/
theorem exec_agree {op : Op} {t : List Target} {ids : List ℕ} {code : ℕ} (cond : ℕ)
    (he : Exec t s m op s' m') (hslots : slots op t = some ids) (hcode : opcode op = some code)
    (hA : Agree s c) :
    ∃ c', exec c ⟨m.state⟩ ⟨code, ids.getD 0 NO_TARGET, ids.getD 1 NO_TARGET,
      ids.getD 2 NO_TARGET, cond⟩ = some (c', ⟨m'.state⟩) ∧ Agree s' c' := by
  cases he with
  | x h0 hs =>
    cases hcode
    obtain rfl := eq_of_one h0 hslots
    obtain ⟨c', hc', hA'⟩ := hA.flipQ hs
    rw [if_pos rfl] at hc'
    refine ⟨c', ?_, hA'⟩
    simp [exec, OP_X, hc']
  | cx h0 h1 hv hs =>
    cases hcode
    obtain rfl := eq_of_two h0 h1 hslots
    obtain ⟨c', hc', hA'⟩ := hA.flipQ hs
    refine ⟨c', ?_, hA'⟩
    simp only [exec, OP_X, OP_CX, List.getD_cons_zero, List.getD_cons_succ, hA.getQ hv, toNat_eq_one]
    exact ite_bind _ hc'
  | ccx h0 h1 h2 hv hs =>
    cases hcode
    obtain rfl := eq_of_three h0 h1 h2 hslots
    obtain ⟨c', hc', hA'⟩ := hA.flipQ hs
    refine ⟨c', ?_, hA'⟩
    simpa [exec, OP_X, OP_CX, OP_CCX] using hA.controlled hv ⟨m.state⟩ hc'
  | z h0 hv =>
    cases hcode
    obtain rfl := eq_of_one h0 hslots
    obtain ⟨c', hc', hA'⟩ := hA.flipPhase _
    refine ⟨c', ?_, hA'⟩
    simpa [exec, OP_X, OP_CX, OP_CCX, OP_Z] using hA.controlled hv ⟨m.state⟩ hc'
  | cz h0 h1 hv =>
    cases hcode
    obtain rfl := eq_of_two h0 h1 hslots
    obtain ⟨c', hc', hA'⟩ := hA.flipPhase _
    refine ⟨c', ?_, hA'⟩
    simpa [exec, OP_X, OP_CX, OP_CCX, OP_Z, OP_CZ] using hA.controlled hv ⟨m.state⟩ hc'
  | ccz h0 h1 h2 hv =>
    cases hcode
    obtain rfl := eq_of_three h0 h1 h2 hslots
    obtain ⟨c', hc', hA'⟩ := hA.flipPhase _
    refine ⟨c', ?_, hA'⟩
    simpa [exec, OP_X, OP_CX, OP_CCX, OP_Z, OP_CZ, OP_CCZ] using hA.controlled hv ⟨m.state⟩ hc'
  | neg =>
    cases hcode
    obtain ⟨c', hc', hA'⟩ := hA.flipPhase true
    rw [if_pos rfl] at hc'
    refine ⟨c', ?_, hA'⟩
    simp [exec, OP_X, OP_CX, OP_CCX, OP_Z, OP_CZ, OP_CCZ, OP_NEG, hc']
  | swap h0 h1 ha hb hs hs' =>
    cases hcode
    obtain rfl := eq_of_two h0 h1 hslots
    refine ⟨_, ?_, (hA.insertQ hs).insertQ hs'⟩
    simp only [exec, OP_X, OP_CX, OP_CCX, OP_Z, OP_CZ, OP_CCZ, OP_NEG, OP_SWAP,
      List.getD_cons_zero, List.getD_cons_succ, hA.getQ ha, hA.getQ hb]
    rfl
  | rOff h0 hv hs =>
    cases hcode
    obtain rfl := eq_of_one h0 hslots
    obtain ⟨c1, hc1, hA1⟩ := hA.flipPhase false
    cases hc1
    refine ⟨_, ?_, hA1.insertQ hs⟩
    simp only [exec, OP_X, OP_CX, OP_CCX, OP_Z, OP_CZ, OP_CCZ, OP_NEG, OP_SWAP, OP_R,
      List.getD_cons_zero, hA.getQ hv]
    rfl
  | rOn h0 hv hs =>
    cases hcode
    obtain rfl := eq_of_one h0 hslots
    obtain ⟨c1, hc1, hA1⟩ := hA.flipPhase (MeasureSource.nextBit m).1
    refine ⟨_, ?_, hA1.insertQ hs⟩
    exact exec_r_on (nextBit_eq m) (hA.getQ hv) hc1
  | @hmr a b on s1 s' h0 h1 hon hs hs' =>
    cases hcode
    obtain rfl := eq_of_two h0 h1 hslots
    obtain ⟨c1, hc1, hA1⟩ := hA.flipPhase (on && (MeasureSource.nextBit m).1)
    refine ⟨_, ?_, (hA1.insertB hs).insertQ hs'⟩
    exact exec_hmr (nextBit_eq m) (hA.getQ hon) hc1
  | @bitInvert b v s' h0 hv hs =>
    cases hcode
    obtain rfl := eq_of_one (outputBit_of_head h0) hslots
    have hb : s.getBit b = v := by
      rw [GroverTax.Kickmix.State.getBit, List.getD_eq_getElem?_getD, hv]
      rfl
    have he : exec c ⟨m.state⟩ ⟨OP_BIT_INVERT, b, NO_TARGET, NO_TARGET, cond⟩ =
        (checkedSub 1 (c.getB b)).bind fun v => some (c.insertB b v, ⟨m.state⟩) := rfl
    refine ⟨_, ?_, hA.insertB hs⟩
    rw [List.getD_cons_zero]
    exact he.trans (by rw [hA.getB, hb, checkedSub_one_toNat]; rfl)
  | @bitStore0 b s' h0 hs =>
    cases hcode
    obtain rfl := eq_of_one (outputBit_of_head h0) hslots
    exact ⟨_, rfl, hA.insertB hs⟩
  | @bitStore1 b s' h0 hs =>
    cases hcode
    obtain rfl := eq_of_one (outputBit_of_head h0) hslots
    exact ⟨_, rfl, hA.insertB hs⟩
  | skip hop h0 hx =>
    -- an operand that is no bit has no slots
    have h0' : outputBit t 0 = none := by
      unfold outputBit
      rw [← List.head?_eq_getElem?, h0]
      split
      · rename_i b hb
        exact absurd (Option.some.inj hb) (hx b)
      · rfl
    rcases hop with rfl | rfl | rfl <;> simp [slots, h0'] at hslots

theorem opcode_control {op : Op} {code : ℕ} (h : opcode op = some code)
    (hne : op ≠ .pushCondition ∧ op ≠ .popCondition) :
    code ≠ OP_PUSH_CONDITION ∧ code ≠ OP_POP_CONDITION := by
  obtain ⟨h1, h2⟩ := hne
  cases op <;> cases h <;> first | exact absurd rfl h1 | exact absurd rfl h2 | decide

theorem run_singleton (c : State) (rng : Rng) (inst : Inst) :
    run c rng [inst] = step c rng inst := by
  unfold run
  rw [run_cons]
  cases step c rng inst <;> rfl

/-- **One instruction, metadata included.** A PUSH_CONDITION needs room on the condition stack. -/
theorem step_agree {inst : Instruction} {bs : List Inst} (henc : encode inst = some bs)
    (h : GroverTax.Kickmix.step inst s m = some (s', m')) (hA : Agree s c)
    (hlen : s.condStack.length + 1 < 2 ^ 32) :
    ∃ c', run c ⟨m.state⟩ bs = some (c', ⟨m'.state⟩) ∧ Agree s' c' ∧
      s'.condStack.length ≤ s.condStack.length + 1 := by
  cases GroverTax.Kickmix.step_sound h with
  | @push bit hop hc =>
    obtain ⟨ids, _, _, rfl⟩ := encode_eq_some hop rfl henc
    have hadd : checkedAdd 32 c.condLen 1 = some (c.condLen + 1) := by
      rw [hA.condLen]
      exact checkedAdd_of_lt hlen
    refine ⟨_, ?_, hA.push bit, by simp⟩
    rw [run_singleton, step, if_pos rfl]
    simp only [hc, condField, hadd, Option.bind_eq_bind, Option.bind_some, Option.pure_def]
  | pop hop =>
    obtain ⟨ids, _, _, rfl⟩ := encode_eq_some hop rfl henc
    refine ⟨_, run_singleton .., hA.pop, ?_⟩
    simp
    omega
  | metadata hop hm =>
    have hbs : bs = [] := by
      unfold encode at henc
      rw [hop] at henc
      rcases hm with rfl | rfl | rfl <;> cases henc <;> rfl
    subst hbs
    exact ⟨c, rfl, hA, by omega⟩
  | inactive ha hop =>
    cases hname : Op.ofName inst.name with
    | none =>
      unfold encode at henc
      rw [hname] at henc
      cases henc
    | some op =>
      cases hcode : opcode op with
      | none =>
        unfold encode at henc
        simp only [hname, hcode, Option.some.injEq] at henc
        subst henc
        exact ⟨c, rfl, hA, by omega⟩
      | some code =>
        obtain ⟨ids, _, hcond, rfl⟩ := encode_eq_some hname hcode henc
        obtain ⟨h1, h2⟩ := opcode_control hcode (hop op hname)
        refine ⟨c, ?_, hA, by omega⟩
        rw [run_singleton, step, if_neg h1, if_neg h2, hA.active hcond, ha]
        rfl
  | @active op _ _ ha hop hne he =>
    cases hcode : opcode op with
    | none => cases op <;> cases hcode <;> cases he <;> simp at *
    | some code =>
      obtain ⟨ids, hslots, hcond, rfl⟩ := encode_eq_some hop hcode henc
      obtain ⟨h1, h2⟩ := opcode_control hcode hne
      obtain ⟨c', hc', hA'⟩ := exec_agree (condField inst.condition) he hslots hcode hA
      refine ⟨c', ?_, hA', ?_⟩
      · rw [run_singleton, step, if_neg h1, if_neg h2, hA.active hcond, ha]
        exact hc'
      · rw [(GroverTax.Kickmix.exec_frame he).condStack]
        omega

end Step

/-! ## 5. A program -/

/-- **The Cairo simulator simulates the Rust one.** Whenever the Rust run of a program of fewer
    than `2 ^ 32` instructions, from an empty condition stack and driven by SplitMix64, does not
    panic, the Cairo run of its records does not either, and the final states and generators
    agree; the generators' arithmetic is the wrapping one on every `u64`. -/
theorem run_agree :
    (∀ (insts : List Instruction) (recs : List Inst) (s s' : GroverTax.Kickmix.State) (c : State)
      (m m' : SplitMix64), insts.length < 2 ^ 32 → encodeProgram insts = some recs →
      s.condStack = [] → Agree s c →
      GroverTax.Kickmix.runInstructions insts s m = some (s', m') →
      ∃ c', run c ⟨m.state⟩ recs = some (c', ⟨m'.state⟩) ∧ Agree s' c') ∧
    (∀ a b : UInt64, wadd64 a b = some (a + b)) ∧ (∀ a b : UInt64, wmul64 a b = some (a * b)) ∧
    ∀ m : SplitMix64, nextU64 ⟨m.state⟩ = some (m.nextU64.1, ⟨m.nextU64.2.state⟩) := by
  refine ⟨fun insts recs s s' c m m' hlen henc hstack hA hrun => ?_, wadd64_eq, wmul64_eq,
    nextU64_eq⟩
  obtain ⟨bss, hbss, hrecs⟩ := Option.bind_eq_some_iff.mp henc
  cases hrecs
  -- after `n` instructions the condition stack holds at most `n` entries
  let R : ℕ → GroverTax.Kickmix.State × SplitMix64 → State × Rng → Prop := fun n sm cr =>
    Agree sm.1 cr.1 ∧ cr.2 = ⟨sm.2.state⟩ ∧ sm.1.condStack.length ≤ n
  have hstep : ∀ n < 2 ^ 32 - 1, ∀ (inst : Instruction) (bs : List Inst)
      (sm : GroverTax.Kickmix.State × SplitMix64) (cr : State × Rng) sm', encode inst = some bs →
      R n sm cr → GroverTax.Kickmix.step inst sm.1 sm.2 = some sm' →
      ∃ cr', Lib.run (fun (sr : State × Rng) inst => step sr.1 sr.2 inst) cr bs = some cr' ∧
        R (n + 1) sm' cr' := by
    rintro n hn inst bs ⟨s, m⟩ ⟨c, r⟩ ⟨s', m'⟩ hbs ⟨hA, rfl, hle⟩ hs
    obtain ⟨c', hc', hA', hle'⟩ := step_agree hbs hs hA (by simp only at hle ⊢; omega)
    exact ⟨_, hc', hA', rfl, hle'.trans (Nat.succ_le_succ hle)⟩
  obtain ⟨⟨c', r'⟩, hc', hA', rfl, _⟩ := run_sim hstep (forall₂_of_mapM hbss)
    (by omega : 0 + insts.length ≤ 2 ^ 32 - 1)
    (show R 0 (s, m) (c, ⟨m.state⟩) from ⟨hA, rfl, by simp [hstack]⟩) hrun
  exact ⟨c', hc', hA'⟩

/-- Two fresh states agree. -/
theorem agree_newState (numQubits numBits : ℕ) :
    Agree (GroverTax.Kickmix.State.new numQubits numBits) newState := by
  have hget : ∀ n i : ℕ, (List.replicate n false).getD i false = false := fun n i => by
    rw [List.getD_eq_getElem?_getD]
    exact List.getElem?_getD_replicate_default_eq false n i
  refine ⟨fun i => ?_, fun i => ?_, rfl, rfl, fun _ h => absurd h (Nat.not_lt_zero _)⟩
  · rw [GroverTax.Kickmix.State.new, hget]
    rfl
  · rw [GroverTax.Kickmix.State.new, hget]
    rfl

/-- A measurement and its phase correction, with a metadata line before them. -/
def hmrProgram : List Instruction :=
  [⟨"REGISTER", [.register 0], none⟩, ⟨"X", [.qubit 0], none⟩,
    ⟨"HMR", [.qubit 0, .bit 0], none⟩, ⟨"NEG", [], some 0⟩]

def hmrRecords : List Inst :=
  [⟨OP_X, 0, NO_TARGET, NO_TARGET, NO_COND⟩, ⟨OP_HMR, 0, 0, NO_TARGET, NO_COND⟩,
    ⟨OP_NEG, NO_TARGET, NO_TARGET, NO_TARGET, 0⟩]

theorem run_agree_hmr : ∃ c', run newState (rngNew 0) hmrRecords = some (c', ⟨GAMMA⟩) ∧
    Agree ⟨[false], [true], false, []⟩ c' :=
  run_agree.1 hmrProgram hmrRecords (GroverTax.Kickmix.State.new 1 1) _ newState (SplitMix64.new 0)
    ⟨GAMMA⟩ (by decide) (by decide +kernel) rfl (agree_newState 1 1) (by decide +kernel)

end GroverTax.Cairo.Kickmix
