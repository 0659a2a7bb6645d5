/-
  File:      GroverTax/Kickmix/Value.lean
  Subject:   What the phase and the measurement outcomes of a run of src/kickmix/src/lib.rs can
             reach.

  * `value` -- a machine of qubits alone: no sign, no bits, no source; `run_value` -- where only
    phase instructions are conditioned, a completed run ends with the qubits of `value`, so two
    runs end with the same qubits whatever they measured;
  * `run_unseen` -- a run reads neither the sign nor more of its source than the bits;
    `run_xorPhase` -- the initial sign is carried to the end and reaches nothing else;
  * `Counting` -- a source that counts its draws; `run_forget` -- the count does not show.
-/
import GroverTax.Kickmix.Conditions
import GroverTax.Kickmix.Safety

namespace GroverTax.Kickmix

open GroverTax.Lib

/-! ## 1. The machine of qubits -/

/-- The qubits after an instruction that is active. -/
def valueStep (op : Op) (t : List Target) (qs : List Bool) : List Bool :=
  let a := (q t 0).getD 0
  let b := (q t 1).getD 0
  let c := (q t 2).getD 0
  let on := fun i => qs.getD i false
  match op with
  | .x => qs.set a (on a ^^ true)
  | .cx => qs.set b (on b ^^ on a)
  | .ccx => qs.set c (on c ^^ (on a && on b))
  | .swap => (qs.set a (on b)).set b (on a)
  | .r | .hmr => qs.set a false
  | _ => qs

def value (insts : List Instruction) (qs : List Bool) : List Bool :=
  insts.foldl (fun qs inst => (Op.ofName inst.name).elim qs (valueStep · inst.targets qs)) qs

/-- The instructions that write the sign and nothing else. -/
def isPhase : Op → Bool
  | .z | .cz | .ccz | .neg => true
  | _ => false

theorem valueStep_isPhase {op : Op} (h : isPhase op = true) (t : List Target) (qs : List Bool) :
    valueStep op t qs = qs := by
  cases op <;> first | rfl | cases h

section State

variable {s s' : State} {i : ℕ} {v : Bool}

theorem State.getD_of_readQubit (h : s.readQubit i = some v) : s.qubits.getD i false = v := by
  rw [List.getD_eq_getElem?_getD, show s.qubits[i]? = some v from h, Option.getD_some]

theorem State.qubits_writeQubit (h : s.writeQubit i v = some s') :
    s'.qubits = s.qubits.set i v := by
  obtain ⟨_, rfl⟩ := State.writeQubit_eq_some.mp h
  rfl

theorem State.qubits_xorQubit (h : s.xorQubit i v = some s') :
    s'.qubits = s.qubits.set i (s.qubits.getD i false ^^ v) := by
  obtain ⟨w, hw, h⟩ := State.xorQubit_eq_some.mp h
  rw [State.qubits_writeQubit h, State.getD_of_readQubit hw]

theorem State.qubits_writeBit (h : s.writeBit i v = some s') : s'.qubits = s.qubits := by
  obtain ⟨_, rfl⟩ := State.writeBit_eq_some.mp h
  rfl

/-- The conjunction of some qubits. -/
theorem State.allOn_eq : ∀ {is : List ℕ} {v : Bool}, s.allOn is = some v →
    v = is.all (s.qubits.getD · false)
  | [], v, h => by
      cases h
      rfl
  | i :: is, v, h => by
      obtain ⟨w, hw, h⟩ := Option.bind_eq_some_iff.mp h
      rw [List.all_cons, State.getD_of_readQubit hw]
      cases w with
      | true => exact State.allOn_eq h
      | false =>
        cases h
        rfl

end State

section Step

variable {M : Type} [MeasureSource M] {s s' : State} {m m' : M}

/-- **An active instruction does to the qubits what the machine of qubits does.** -/
theorem exec_value {op : Op} {t : List Target} (h : Exec t s m op s' m') :
    s'.qubits = valueStep op t s.qubits := by
  cases h with
  | x h0 hs => simp [valueStep, h0, State.qubits_xorQubit hs]
  | cx h0 h1 hv hs =>
    simp [valueStep, h0, h1, State.qubits_xorQubit hs, ← State.getD_of_readQubit hv]
  | ccx h0 h1 h2 hv hs =>
    simp [valueStep, h0, h1, h2, State.qubits_xorQubit hs, State.allOn_eq hv]
  | z => rfl
  | cz => rfl
  | ccz => rfl
  | neg => rfl
  | swap h0 h1 ha hb hs hs' =>
    simp [valueStep, h0, h1, State.qubits_writeQubit hs', State.qubits_writeQubit hs,
      ← State.getD_of_readQubit ha, ← State.getD_of_readQubit hb]
  | rOff h0 _ hs => simp [valueStep, h0, State.qubits_writeQubit hs, State.xorPhase]
  | rOn h0 _ hs => simp [valueStep, h0, State.qubits_writeQubit hs, State.xorPhase]
  | hmr h0 _ _ hs hs' =>
    simp [valueStep, h0, State.qubits_writeQubit hs', State.qubits_writeBit hs, State.xorPhase]
  | bitInvert _ _ hs => exact State.qubits_writeBit hs
  | bitStore0 _ hs => exact State.qubits_writeBit hs
  | bitStore1 _ hs => exact State.qubits_writeBit hs
  | skip hop =>
    rcases hop with rfl | rfl | rfl <;> rfl

/-- No PUSH_CONDITION, and no condition but on an instruction that writes the sign alone. -/
def ConditionsPhase (insts : List Instruction) : Prop :=
  ∀ inst ∈ insts, Op.ofName inst.name ≠ some .pushCondition ∧
    (inst.condition ≠ none → ∃ op, Op.ofName inst.name = some op ∧ isPhase op = true)

theorem step_value {inst : Instruction} (hpush : Op.ofName inst.name ≠ some .pushCondition)
    (hcond : inst.condition ≠ none → ∃ op, Op.ofName inst.name = some op ∧ isPhase op = true)
    (hs : s.condStack = []) (h : step inst s m = some (s', m')) :
    s'.condStack = [] ∧
      s'.qubits = (Op.ofName inst.name).elim s.qubits (valueStep · inst.targets s.qubits) := by
  cases step_sound h with
  | push hop => exact absurd hop hpush
  | pop hop =>
    rw [hop]
    exact ⟨by simp only [hs, List.dropLast_nil], rfl⟩
  | metadata hop hm =>
    rw [hop]
    rcases hm with rfl | rfl | rfl <;> exact ⟨hs, rfl⟩
  | inactive ha =>
    -- on an empty stack only a condition turns an instruction off
    have hne : inst.condition ≠ none := by
      intro e
      rw [State.active_eq, hs, e] at ha
      cases ha
    obtain ⟨op, hop, hp⟩ := hcond hne
    rw [hop, Option.elim_some, valueStep_isPhase hp]
    exact ⟨hs, rfl⟩
  | active _ hop _ he =>
    rw [hop]
    exact ⟨(exec_frame he).condStack.trans hs, exec_value he⟩

/-- **A completed run ends with the qubits of the machine of qubits**, whatever it measured. -/
theorem run_value : ∀ {insts : List Instruction} {s : State} {m : M} {r : State × M},
    ConditionsPhase insts → s.condStack = [] → runInstructions insts s m = some r →
      r.1.qubits = value insts s.qubits
  | [], s, m, r, _, _, h => by
      cases h
      rfl
  | inst :: insts, s, m, r, hc, hs, h => by
      obtain ⟨⟨s1, m1⟩, h1, h2⟩ := run_cons_some.mp h
      obtain ⟨hpush, hcond⟩ := hc inst List.mem_cons_self
      obtain ⟨hs1, e⟩ := step_value hpush hcond hs h1
      have ih := run_value (fun i hi => hc i (List.mem_cons_of_mem _ hi)) hs1 h2
      rw [ih, e]
      rfl

end Step

/-! ## 2. The sign and the source -/

/-- A source that counts how often it is asked. -/
structure Counting (M : Type) where
  source : M
  drawn : ℕ

instance {M : Type} [MeasureSource M] : MeasureSource (Counting M) where
  nextBit m := ((nextBit m.source).1, ⟨(nextBit m.source).2, m.drawn + 1⟩)

section Unseen

variable {M N : Type} [MeasureSource M] [MeasureSource N] {f : M → N}

theorem act_xorPhase (inst : Instruction) (s : State) (d : Bool) (m : M) :
    act inst (s.xorPhase d) m = (act inst s m).map fun r => (r.1.xorPhase d, r.2) := by
  have hs : s.xorPhase d = s.shift d s.condStack := rfl
  rw [hs, act_shift]
  cases h : act inst s m with
  | none => rfl
  | some r => rw [Option.map_some, Option.map_some, ← act_condStack h]; rfl

/-- A map that keeps the bits of a source keeps the effect of an instruction. -/
theorem exec_map (hf : ∀ m, nextBit (f m) = ((nextBit m).1, f (nextBit m).2)) (op : Op)
    (t : List Target) (s : State) (m : M) :
    exec op t s (f m) = (exec op t s m).map fun r => (r.1, f r.2) := by
  cases op
  case r =>
    simp only [exec, Option.bind_eq_bind, Option.pure_def, Option.map_bind, Function.comp_def,
      Option.map_some]
    refine congrArg _ (funext fun a => congrArg _ (funext fun on => ?_))
    cases on with
    | true => simp only [if_true, hf]
    | false => rfl
  all_goals
    simp only [exec, Option.bind_eq_bind, Option.pure_def, Option.map_bind, Function.comp_def,
      Option.map_some, Option.map_none, Option.map_map, hf]

theorem act_map (hf : ∀ m, nextBit (f m) = ((nextBit m).1, f (nextBit m).2)) (inst : Instruction)
    (s : State) (m : M) : act inst s (f m) = (act inst s m).map fun r => (r.1, f r.2) := by
  unfold act
  split
  · rfl
  · rfl
  · rfl
  · cases Op.ofName inst.name with
    | none => rfl
    | some op => exact exec_map hf op inst.targets s m

/-- **No instruction reads the sign, and of the source none reads more than its bits.** -/
theorem step_unseen (hf : ∀ m, nextBit (f m) = ((nextBit m).1, f (nextBit m).2))
    (inst : Instruction) (s : State) (d : Bool) (m : M) :
    step inst (s.xorPhase d) (f m) = (step inst s m).map fun r => (r.1.xorPhase d, f r.2) := by
  cases hb : bracketOf inst with
  | opens =>
    rw [step_opens hb, step_opens hb, Option.map_map]
    rfl
  | closes =>
    rw [step_closes hb, step_closes hb]
    rfl
  | plain =>
    have hact : (s.xorPhase d).active inst.condition = s.active inst.condition := rfl
    rw [step_plain hb, step_plain hb, hact]
    split_ifs
    · rw [act_map hf, act_xorPhase, Option.map_map]
      rfl
    · rfl

theorem run_unseen (hf : ∀ m, nextBit (f m) = ((nextBit m).1, f (nextBit m).2))
    (insts : List Instruction) (s : State) (d : Bool) (m : M) :
    runInstructions insts (s.xorPhase d) (f m) =
      (runInstructions insts s m).map fun r => (r.1.xorPhase d, f r.2) :=
  run_map (φ := fun r : State × M => (r.1.xorPhase d, f r.2))
    (fun r inst => step_unseen hf inst r.1 d r.2) insts (s, m)

/-- **The initial sign is carried to the end of a run and reaches nothing else.** -/
theorem run_xorPhase (insts : List Instruction) (s : State) (d : Bool) (m : M) :
    runInstructions insts (s.xorPhase d) m =
      (runInstructions insts s m).map fun r => (r.1.xorPhase d, r.2) :=
  run_unseen (f := id) (fun _ => rfl) insts s d m

/-- The draws of a run. -/
def draws (insts : List Instruction) (s : State) (m : M) : Option ℕ :=
  (runInstructions insts s (⟨m, 0⟩ : Counting M)).map fun r => r.2.drawn

/-- **The count does not show**: a run that counts is the run. -/
theorem run_forget (insts : List Instruction) (s : State) (m : M) (n : ℕ) :
    runInstructions insts s m =
      (runInstructions insts s (⟨m, n⟩ : Counting M)).map fun r => (r.1, r.2.source) := by
  have hsign : ∀ t : State, t.xorPhase false = t := fun t => by simp [State.xorPhase]
  have h := run_unseen (f := Counting.source) (fun _ => rfl) insts s false (⟨m, n⟩ : Counting M)
  simp only [hsign] at h
  exact h

end Unseen

/-! ## 3. What can leak -/

/-- **Phase and measurement outcomes do not leak into the value.** Where only phase instructions are
    conditioned, two runs that complete end with the same qubits; and the initial sign of any run
    comes back at its end, with everything else, the draws included, unchanged. -/
theorem no_leak {M N : Type} [MeasureSource M] [MeasureSource N] (c : Circuit) :
    (ConditionsPhase c.instructions → ∀ s : State, s.condStack = [] → ∀ (m : M) (n : N) r r',
      run c s m = some r → run c s n = some r' → r.1.qubits = r'.1.qubits) ∧
    ∀ (s s' : State) (m : M), s'.qubits = s.qubits → s'.bits = s.bits →
      s'.condStack = s.condStack →
        run c s' m = (run c s m).map (fun r => (r.1.xorPhase (s.phase ^^ s'.phase), r.2)) ∧
          draws c.instructions s' m = draws c.instructions s m := by
  refine ⟨fun hc s hs m n r r' h h' => (run_value hc hs h).trans (run_value hc hs h').symm,
    fun s s' m hq hb hk => ?_⟩
  have e : s' = s.xorPhase (s.phase ^^ s'.phase) := by
    obtain ⟨_, _, p, _⟩ := s
    obtain ⟨_, _, p', _⟩ := s'
    cases hq
    cases hb
    cases hk
    simp [State.xorPhase]
  refine ⟨?_, ?_⟩
  · conv_lhs => rw [e]
    exact run_xorPhase c.instructions s _ m
  · rw [e, draws, run_xorPhase, Option.map_map]
    rfl

/-- A measurement whose outcome steers a phase instruction. -/
def steeredCircuit : Circuit where
  instructions := [⟨"HMR", [.qubit 2, .bit 0], none⟩, ⟨"CZ", [.qubit 0, .qubit 1], some 0⟩,
    ⟨"CX", [.qubit 0, .qubit 1], none⟩]
  numQubits := 3
  numBits := 1

/-- Two seeds whose first outcomes differ, and the other sign. -/
theorem no_leak_steered :
    (∃ r r', run steeredCircuit ⟨[true, false, true], [false], false, []⟩ (SplitMix64.new 0) =
        some r ∧
      run steeredCircuit ⟨[true, false, true], [false], false, []⟩ (SplitMix64.new 2) = some r' ∧
      r.1.bits ≠ r'.1.bits ∧ r.1.qubits = r'.1.qubits) ∧
    draws steeredCircuit.instructions ⟨[true, false, true], [false], true, []⟩
        (SplitMix64.new 0) =
      draws steeredCircuit.instructions ⟨[true, false, true], [false], false, []⟩
        (SplitMix64.new 0) := by
  have h := no_leak (M := SplitMix64) (N := SplitMix64) steeredCircuit
  have hc : ConditionsPhase steeredCircuit.instructions := by
    unfold ConditionsPhase
    decide +kernel
  refine ⟨⟨(⟨[true, true, false], [true], true, []⟩, (nextBit (SplitMix64.new 0)).2),
    (⟨[true, true, false], [false], false, []⟩, (nextBit (SplitMix64.new 2)).2),
    by decide +kernel, by decide +kernel, by decide, ?_⟩, ?_⟩
  · exact h.1 hc ⟨[true, false, true], [false], false, []⟩ rfl (SplitMix64.new 0)
      (SplitMix64.new 2) _ _ (by decide +kernel) (by decide +kernel)
  · exact (h.2 ⟨[true, false, true], [false], false, []⟩ ⟨[true, false, true], [false], true, []⟩
      (SplitMix64.new 0) rfl rfl rfl).2

end GroverTax.Kickmix
