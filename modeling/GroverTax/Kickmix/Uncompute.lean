/-
  File:      GroverTax/Kickmix/Uncompute.lean
  Subject:   Measurement-based uncomputation in the simulator of src/kickmix/src/lib.rs: HMR of a
             qubit that holds the conjunction of two others, and a CZ of these under the outcome.

  * `step_gate` -- an instruction by its opcode;
  * `Writes` -- the qubits an instruction can write; `run_readQubit` -- a run keeps the others;
  * `run_uncompute` -- the kick of HMR and the CZ cancel, whatever the outcome;
  * **`uncompute_exact`** -- the same around a body that reads the conjunction.
-/
import GroverTax.Kickmix.Value

namespace GroverTax.Kickmix

open GroverTax.Lib

/-! ## 1. One instruction -/

/-- The opcodes that obey the condition stack. -/
def isGate : Op → Bool
  | .pushCondition | .popCondition | .register | .appendToRegister | .debugPrint => false
  | _ => true

/-- The qubits an instruction writes when it is active. -/
def writtenQubits (op : Op) (t : List Target) : List (Option ℕ) :=
  match op with
  | .x | .r | .hmr => [q t 0]
  | .cx => [q t 1]
  | .ccx => [q t 2]
  | .swap => [q t 0, q t 1]
  | _ => []

def Writes (inst : Instruction) (i : ℕ) : Prop :=
  ∃ op, Op.ofName inst.name = some op ∧ some i ∈ writtenQubits op inst.targets

namespace State

variable {s s' : State} {i j : ℕ} {v : Bool}

theorem readQubit_writeQubit (h : s.writeQubit i v = some s') (hij : i ≠ j) :
    s'.readQubit j = s.readQubit j := by
  rw [readQubit, qubits_writeQubit h, List.getElem?_set_ne hij]
  rfl

theorem readQubit_xorQubit (h : s.xorQubit i v = some s') (hij : i ≠ j) :
    s'.readQubit j = s.readQubit j := by
  obtain ⟨w, -, h⟩ := xorQubit_eq_some.mp h
  exact readQubit_writeQubit h hij

theorem readQubit_writeBit (h : s.writeBit i v = some s') : s'.readQubit j = s.readQubit j := by
  rw [readQubit, qubits_writeBit h]
  rfl

end State

section Step

variable {M : Type} [MeasureSource M] {s s' : State} {m m' : M} {i : ℕ}

theorem step_gate {op : Op} (h : isGate op = true) (t : List Target) (c : Option ℕ) :
    step ⟨op.name, t, c⟩ s m = if s.active c then exec op t s m else some (s, m) := by
  unfold step
  rw [Op.ofName_name]
  cases op <;> first | rfl | cases h

theorem exec_readQubit {op : Op} {t : List Target} (h : Exec t s m op s' m')
    (hi : some i ∉ writtenQubits op t) : s'.readQubit i = s.readQubit i := by
  have ne : ∀ {o : Option ℕ} {j : ℕ}, o = some j → some i ≠ o → j ≠ i := by
    rintro _ j rfl hne rfl
    exact hne rfl
  cases h with
  | x h0 hs =>
    simp only [writtenQubits, List.mem_singleton] at hi
    exact State.readQubit_xorQubit hs (ne h0 hi)
  | cx _ h1 _ hs =>
    simp only [writtenQubits, List.mem_singleton] at hi
    exact State.readQubit_xorQubit hs (ne h1 hi)
  | ccx _ _ h2 _ hs =>
    simp only [writtenQubits, List.mem_singleton] at hi
    exact State.readQubit_xorQubit hs (ne h2 hi)
  | z => rfl
  | cz => rfl
  | ccz => rfl
  | neg => rfl
  | swap h0 h1 _ _ hs hs' =>
    simp only [writtenQubits, List.mem_cons, List.not_mem_nil, or_false, not_or] at hi
    exact (State.readQubit_writeQubit hs' (ne h1 hi.2)).trans
      (State.readQubit_writeQubit hs (ne h0 hi.1))
  | rOff h0 _ hs =>
    simp only [writtenQubits, List.mem_singleton] at hi
    have e := State.readQubit_writeQubit hs (ne h0 hi)
    exact e
  | rOn h0 _ hs =>
    simp only [writtenQubits, List.mem_singleton] at hi
    have e := State.readQubit_writeQubit hs (ne h0 hi)
    exact e
  | hmr h0 _ _ hs hs' =>
    simp only [writtenQubits, List.mem_singleton] at hi
    have e := State.readQubit_writeBit (j := i) hs
    exact (State.readQubit_writeQubit hs' (ne h0 hi)).trans e
  | bitInvert _ _ hs => exact State.readQubit_writeBit hs
  | bitStore0 _ hs => exact State.readQubit_writeBit hs
  | bitStore1 _ hs => exact State.readQubit_writeBit hs
  | skip => rfl

/-- **A run keeps the qubits that none of its instructions writes.** -/
theorem run_readQubit {insts : List Instruction} {r : State × M}
    (hi : ∀ inst ∈ insts, ¬ Writes inst i) (h : runInstructions insts s m = some r) :
    r.1.readQubit i = s.readQubit i := by
  refine run_inv (I := fun r => r.1.readQubit i = s.readQubit i) ?_ rfl h
  rintro inst hmem ⟨s1, m1⟩ ⟨s2, m2⟩ hs1 hstep
  refine Eq.trans ?_ hs1
  cases step_sound hstep with
  | push => rfl
  | pop => rfl
  | metadata => rfl
  | inactive => rfl
  | active _ hop _ he => exact exec_readQubit he fun hw => hi inst hmem ⟨_, hop, hw⟩

end Step

/-! ## 2. The uncomputation -/

/-- HMR of `t` into bit `k`, then CZ of `a` and `b` if the outcome is on. -/
def uncompute (a b t k : ℕ) : List Instruction :=
  [⟨Op.hmr.name, [.qubit t, .bit k], none⟩, ⟨Op.cz.name, [.qubit a, .qubit b], some k⟩]

/-- The state with qubit `t` off and outcome `v` in bit `k`. -/
def State.measured (t k : ℕ) (v : Bool) (s : State) : State :=
  { s with qubits := s.qubits.set t false, bits := s.bits.set k v }

section Uncompute

variable {M : Type} [MeasureSource M] {s : State} {a b t k : ℕ} {va vb : Bool}

theorem State.active_of_all (h : s.condStack.all id = true) : s.active none = true := by
  rw [active_eq, h]
  rfl

/-- HMR on a qubit that holds `v`. -/
theorem exec_hmr {v : Bool} (m : M) (ht : s.readQubit t = some v) (hk : k < s.bits.length) :
    exec .hmr [.qubit t, .bit k] s m =
      some ((s.xorPhase (v && (nextBit m).1)).measured t k (nextBit m).1, (nextBit m).2) := by
  have hlt : t < s.qubits.length := (List.getElem?_eq_some_iff.mp ht).1
  simp [exec, q, outputBit, ht, State.writeBit, State.writeQubit, State.xorPhase, hk, hlt,
    State.measured]

theorem State.allOn_pair (ha : s.readQubit a = some va) (hb : s.readQubit b = some vb) :
    s.allOn [a, b] = some (va && vb) := by
  cases va <;> cases vb <;> simp [allOn, ha, hb]

/-- CZ on qubits that hold `va` and `vb`. -/
theorem exec_cz (m : M) (ha : s.readQubit a = some va) (hb : s.readQubit b = some vb) :
    exec .cz [.qubit a, .qubit b] s m = some (s.xorPhase (va && vb), m) := by
  simp [exec, q, State.allOn_pair ha hb]

/-- CCX onto a qubit that is off. -/
theorem exec_ccx_off (m : M) (ha : s.readQubit a = some va) (hb : s.readQubit b = some vb)
    (ht : s.readQubit t = some false) :
    exec .ccx [.qubit a, .qubit b, .qubit t] s m =
      some ({ s with qubits := s.qubits.set t (va && vb) }, m) := by
  have hlt : t < s.qubits.length := (List.getElem?_eq_some_iff.mp ht).1
  simp [exec, q, State.allOn_pair ha hb, State.xorQubit, State.writeQubit, ht, hlt]

/-- **The kick of HMR and the conditioned CZ cancel**, whatever the outcome. -/
theorem run_uncompute (m : M) (hstack : s.condStack.all id = true) (hta : t ≠ a) (htb : t ≠ b)
    (ha : s.readQubit a = some va) (hb : s.readQubit b = some vb)
    (ht : s.readQubit t = some (va && vb)) (hk : k < s.bits.length) :
    runInstructions (uncompute a b t k) s m =
      some (s.measured t k (nextBit m).1, (nextBit m).2) := by
  rw [uncompute, runInstructions, run_cons, step_gate rfl, State.active_of_all hstack, if_pos rfl,
    exec_hmr m ht hk, Option.bind_some, run_cons, step_gate rfl]
  generalize (nextBit m).1 = v
  have hact : (((s.xorPhase (va && vb && v)).measured t k v).active (some k)) = v := by
    have hbit : ((s.xorPhase (va && vb && v)).measured t k v).getBit k = v := by
      simp [State.measured, State.xorPhase, State.getBit, hk]
    rw [State.active_eq, Option.all_some, hbit]
    exact (congrArg (· && v) hstack).trans (Bool.true_and v)
  rw [hact]
  cases v with
  | false =>
    -- no kick, no correction
    rw [if_neg Bool.false_ne_true, Bool.and_false]
    simp [State.xorPhase, State.measured]
  | true =>
    -- the kick is the conjunction, and so is the correction
    have ha' : ((s.xorPhase (va && vb && true)).measured t k true).readQubit a = some va :=
      (List.getElem?_set_ne hta).trans ha
    have hb' : ((s.xorPhase (va && vb && true)).measured t k true).readQubit b = some vb :=
      (List.getElem?_set_ne htb).trans hb
    rw [if_pos rfl, exec_cz _ ha' hb']
    simp [State.xorPhase, State.measured]

/-! ## 3. Around a body -/

/-- **Measurement-based uncomputation is phase exact.** -/
theorem uncompute_exact (m : M) (hstack : s.condStack.all id = true) (hta : t ≠ a) (htb : t ≠ b)
    (ha : s.readQubit a = some va) (hb : s.readQubit b = some vb) (hk : k < s.bits.length) :
    (s.readQubit t = some (va && vb) → runInstructions (uncompute a b t k) s m =
      some (s.measured t k (nextBit m).1, (nextBit m).2)) ∧
    (s.readQubit t = some false → ∀ body, Balanced bracketOf 0 body →
      (∀ inst ∈ body, ¬ Writes inst a ∧ ¬ Writes inst b ∧ ¬ Writes inst t) →
      runInstructions (⟨Op.ccx.name, [.qubit a, .qubit b, .qubit t], none⟩ :: body ++
          uncompute a b t k) s m =
        (runInstructions body { s with qubits := s.qubits.set t (va && vb) } m).map fun r =>
          (r.1.measured t k (nextBit r.2).1, (nextBit r.2).2)) := by
  refine ⟨fun ht => run_uncompute m hstack hta htb ha hb ht hk, fun ht body hbody hw => ?_⟩
  have hlt : t < s.qubits.length := (List.getElem?_eq_some_iff.mp ht).1
  rw [List.cons_append, runInstructions, run_cons, step_gate rfl, State.active_of_all hstack,
    if_pos rfl, exec_ccx_off m ha hb ht, Option.bind_some, run_append]
  cases hr : runInstructions body { s with qubits := s.qubits.set t (va && vb) } m with
  | none =>
    rw [runInstructions] at hr
    rw [hr]
    rfl
  | some r =>
    have hs := run_condStack hbody hr
    have hkeep : ∀ i, (∀ inst ∈ body, ¬ Writes inst i) →
        r.1.readQubit i = (s.qubits.set t (va && vb))[i]? := fun i hi => run_readQubit hi hr
    rw [runInstructions] at hr
    rw [hr, Option.bind_some, Option.map_some]
    have ha' : r.1.readQubit a = some va := by
      rw [hkeep a fun inst hi => (hw inst hi).1, List.getElem?_set_ne hta]
      exact ha
    have hb' : r.1.readQubit b = some vb := by
      rw [hkeep b fun inst hi => (hw inst hi).2.1, List.getElem?_set_ne htb]
      exact hb
    have ht' : r.1.readQubit t = some (va && vb) := by
      rw [hkeep t fun inst hi => (hw inst hi).2.2, List.getElem?_set_self hlt]
    have hk' : k < r.1.bits.length := (run_shape hr).bits.symm ▸ hk
    exact run_uncompute r.2 (hs ▸ hstack) hta htb ha' hb' ht' hk'

end Uncompute

/-- A body that reads the conjunction, inside and outside a block. -/
def readingBody : List Instruction :=
  [⟨"CX", [.qubit 2, .qubit 3], none⟩, ⟨"PUSH_CONDITION", [], some 1⟩, ⟨"Z", [.qubit 2], none⟩,
    ⟨"POP_CONDITION", [], none⟩]

theorem uncompute_exact_reading :
    runInstructions (uncompute 0 1 2 0) ⟨[true, true, true, false], [false, true], false, [true]⟩
        (SplitMix64.new 0) =
      some (⟨[true, true, false, false], [true, true], false, [true]⟩,
        (nextBit (SplitMix64.new 0)).2) ∧
    runInstructions (⟨Op.ccx.name, [.qubit 0, .qubit 1, .qubit 2], none⟩ :: readingBody ++
        uncompute 0 1 2 0) ⟨[true, true, false, false], [false, true], false, [true]⟩
        (SplitMix64.new 0) =
      some (⟨[true, true, false, true], [true, true], true, [true]⟩,
        (nextBit (SplitMix64.new 0)).2) := by
  have h := @uncompute_exact SplitMix64 _
  refine ⟨((h (SplitMix64.new 0) rfl (by decide) (by decide) rfl rfl (by decide)).1 rfl).trans ?_,
    ((h (SplitMix64.new 0) rfl (by decide) (by decide) rfl rfl (by decide)).2 rfl readingBody
      (by decide +kernel) (by unfold Writes; decide +kernel)).trans ?_⟩
  · decide +kernel
  · decide +kernel

end GroverTax.Kickmix
