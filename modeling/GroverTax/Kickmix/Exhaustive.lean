/-
  File:      GroverTax/Kickmix/Exhaustive.lean
  Subject:   The measurement trajectories of a run of src/kickmix/src/lib.rs, all of them: the
             replayable stream `FixedBits`, and what holds of a state whose every run completes
             with the sign `+1`.

  * `after` -- an instruction under a given outcome; `step_eq_after` -- a step of any source is one
    of the two, and draws at most one bit;
  * `Safe` -- every trajectory from the state completes with `+1`; `Safe.after` -- a step keeps it;
  * `Safe.reset_off` -- **a safe run never resets a qubit that is on**;
  * `Safe.merges_nothing` -- **a step of two safe runs side by side merges no two states**, where no
    gate has its target among its controls: HMR on a qubit that the others do not determine turns
    the sign of one of the two runs.
-/
import GroverTax.Kickmix.Uncompute
import Mathlib.Data.List.GetD

namespace GroverTax.Kickmix

open GroverTax.Lib

/-! ## 1. Sources -/

/-- `FixedBits`: a fixed stream, `false` beyond its end. -/
structure FixedBits where
  bits : List Bool
  pos : ℕ
  deriving DecidableEq, Repr

def FixedBits.new (bits : List Bool) : FixedBits := ⟨bits, 0⟩

instance : MeasureSource FixedBits where
  nextBit m := (m.bits.getD m.pos false, ⟨m.bits, m.pos + 1⟩)

/-- What is left of a fixed stream. -/
structure Tape where
  bits : List Bool

instance : MeasureSource Tape where
  nextBit m := (m.bits.headD false, ⟨m.bits.tail⟩)

theorem nextBit_tape (b : Bool) (bits : List Bool) : nextBit (⟨b :: bits⟩ : Tape) = (b, ⟨bits⟩) := rfl

/-- The source of one outcome. -/
structure Always where
  bit : Bool

instance : MeasureSource Always where
  nextBit m := (m.bit, m)

theorem nextBit_always (b : Bool) : nextBit (⟨b⟩ : Always) = (b, ⟨b⟩) := rfl

def FixedBits.rest (m : FixedBits) : Tape := ⟨m.bits.drop m.pos⟩

theorem FixedBits.nextBit_rest (m : FixedBits) :
    nextBit m.rest = ((nextBit m).1, (nextBit m).2.rest) := by
  refine Prod.ext ?_ (congrArg Tape.mk ?_)
  · show (m.bits.drop m.pos).headD false = m.bits.getD m.pos false
    rw [List.headD_eq_head?_getD, List.head?_drop, List.getD_eq_getElem?_getD]
  · exact List.tail_drop

/-! ## 2. One instruction -/

/-- What steers a run: the bits and the condition stack. -/
structure Control where
  bits : List Bool
  condStack : List Bool
  deriving DecidableEq, Repr

def State.control (s : State) : Control := ⟨s.bits, s.condStack⟩

def Control.active (c : Control) (condition : Option ℕ) : Bool :=
  c.condStack.all id && condition.all (c.bits.getD · false)

theorem State.active_control (s : State) (condition : Option ℕ) :
    s.control.active condition = s.active condition := (State.active_eq s condition).symm

/-- The operation an instruction carries out, if it is no bracket and active. -/
def Control.acts (inst : Instruction) (c : Control) : Option Op :=
  match bracketOf inst with
  | .plain => if c.active inst.condition then Op.ofName inst.name else none
  | _ => none

section Step

variable {M N : Type} [MeasureSource M] [MeasureSource N] {inst : Instruction} {s : State} {b : Bool}

/-- An active instruction asks for a measurement result. -/
def asks (op : Op) (t : List Target) (s : State) : Bool :=
  match op with
  | .hmr => true
  | .r => (q t 0).any fun a => s.qubits.getD a false
  | _ => false

theorem exec_reset (t : List Target) (s : State) (m : M) :
    exec .r t s m = (q t 0).bind fun a => (s.readQubit a).bind fun on =>
      ((s.xorPhase (on && (nextBit m).1)).writeQubit a false).map fun s' =>
        (s', if on then (nextBit m).2 else m) := by
  simp only [exec, Option.bind_eq_bind, Option.pure_def, Option.map_eq_bind, Function.comp_def]
  refine congrArg _ (funext fun a => congrArg _ (funext fun on => ?_))
  cases on <;> rfl

theorem exec_measure (t : List Target) (s : State) (m : M) :
    exec .hmr t s m = (q t 0).bind fun a => (outputBit t 1).bind fun bit =>
      (s.readQubit a).bind fun on =>
        ((s.xorPhase (on && (nextBit m).1)).writeBit bit (nextBit m).1).bind fun s1 =>
          (s1.writeQubit a false).map fun s' => (s', (nextBit m).2) := by
  simp only [exec, Option.bind_eq_bind, Option.pure_def, Option.map_eq_bind, Function.comp_def]

/-- An instruction that asks for nothing does not touch its source. -/
theorem exec_idle {op : Op} {t : List Target} (h : asks op t s = false) (m : M) (n : N) :
    exec op t s m = (exec op t s n).map fun r => (r.1, m) := by
  cases op
  case hmr => cases h
  case r =>
    rw [exec_reset, exec_reset]
    cases hq : q t 0 with
    | none => rfl
    | some a =>
      rw [asks, hq, Option.any_some] at h
      cases hr : s.readQubit a with
      | none => simp [hr]
      | some on =>
        rw [State.getD_of_readQubit hr] at h
        subst h
        simp [hr, Function.comp_def]
  all_goals
    simp only [exec, Option.bind_eq_bind, Option.pure_def, Option.map_bind, Function.comp_def,
      Option.map_some, Option.map_none, Option.map_map]

/-- One that asks takes one bit, and nothing else of the source. -/
theorem exec_asked {op : Op} {t : List Target} (h : asks op t s = true) {m : M} {n : N}
    (he : (nextBit m).1 = (nextBit n).1) :
    exec op t s m = (exec op t s n).map fun r => (r.1, (nextBit m).2) := by
  cases op
  case hmr =>
    rw [exec_measure, exec_measure, he]
    simp only [Option.map_bind, Option.map_map, Function.comp_def]
  case r =>
    rw [exec_reset, exec_reset, he]
    cases hq : q t 0 with
    | none => rfl
    | some a =>
      rw [asks, hq, Option.any_some] at h
      cases hr : s.readQubit a with
      | none => simp [hr]
      | some on =>
        rw [State.getD_of_readQubit hr] at h
        subst h
        simp [hr, Function.comp_def]
  all_goals cases h

/-- The instruction asks for a measurement result in this state. -/
def asksNow (inst : Instruction) (s : State) : Bool :=
  (s.control.acts inst).any fun op => asks op inst.targets s

/-- **The state after an instruction under outcome `b`.** -/
def after (inst : Instruction) (b : Bool) (s : State) : Option State :=
  (step inst s (⟨b⟩ : Always)).map Prod.fst

theorem act_idle (h : ((Op.ofName inst.name).any fun op => asks op inst.targets s) = false)
    (m : M) (n : N) : act inst s m = (act inst s n).map fun r => (r.1, m) := by
  unfold act
  split
  · rfl
  · rfl
  · rfl
  · cases hop : Op.ofName inst.name with
    | none => rfl
    | some op =>
      rw [hop, Option.any_some] at h
      exact exec_idle h m n

theorem act_asked (h : ((Op.ofName inst.name).any fun op => asks op inst.targets s) = true)
    {m : M} {n : N} (he : (nextBit m).1 = (nextBit n).1) :
    act inst s m = (act inst s n).map fun r => (r.1, (nextBit m).2) := by
  unfold act
  split
  · rename_i hop
    rw [hop] at h
    cases h
  · rename_i hop
    rw [hop] at h
    cases h
  · rename_i hop
    rw [hop] at h
    cases h
  · cases hop : Op.ofName inst.name with
    | none => rfl
    | some op =>
      rw [hop, Option.any_some] at h
      exact exec_asked h he

theorem acts_plain (h : bracketOf inst = .plain) :
    s.control.acts inst = if s.active inst.condition then Op.ofName inst.name else none := by
  rw [Control.acts, h, State.active_control]

theorem step_idle (h : asksNow inst s = false) (m : M) (n : N) :
    step inst s m = (step inst s n).map fun r => (r.1, m) := by
  cases hb : bracketOf inst with
  | opens =>
    rw [step_opens hb, step_opens hb, Option.map_map]
    rfl
  | closes =>
    rw [step_closes hb, step_closes hb]
    rfl
  | plain =>
    rw [asksNow, acts_plain hb] at h
    rw [step_plain hb, step_plain hb]
    cases ha : s.active inst.condition with
    | false => rfl
    | true =>
      rw [ha, if_pos rfl] at h
      exact act_idle h m n

/-- **A step of any source is the instruction under its next bit**, and takes that bit or none. -/
theorem step_eq_after (inst : Instruction) (s : State) (m : M) :
    step inst s m = (after inst (nextBit m).1 s).map fun s' =>
      (s', if asksNow inst s then (nextBit m).2 else m) := by
  rw [after, Option.map_map]
  cases h : asksNow inst s with
  | false => exact step_idle h m _
  | true =>
    cases hb : bracketOf inst with
    | opens => rw [asksNow, Control.acts, hb] at h; cases h
    | closes => rw [asksNow, Control.acts, hb] at h; cases h
    | plain =>
      rw [asksNow, acts_plain hb] at h
      cases ha : s.active inst.condition with
      | false => rw [ha] at h; cases h
      | true =>
        rw [ha, if_pos rfl] at h
        rw [step_plain hb, step_plain hb, if_pos ha, if_pos ha]
        exact act_asked h rfl

theorem after_idle (h : asksNow inst s = false) (b b' : Bool) : after inst b s = after inst b' s := by
  rw [after, after, step_idle h (⟨b⟩ : Always) (⟨b'⟩ : Always), Option.map_map]
  rfl

end Step

/-! ## 3. Bits, sign and qubits apart -/

/-- The bits after an active instruction under outcome `b`. -/
def bitsStep (op : Op) (t : List Target) (b : Bool) (bits : List Bool) : List Bool :=
  match op, t.head? with
  | .hmr, _ => bits.set ((outputBit t 1).getD 0) b
  | .bitInvert, some (.bit k) => bits.set k (!bits.getD k false)
  | .bitStore0, some (.bit k) => bits.set k false
  | .bitStore1, some (.bit k) => bits.set k true
  | _, _ => bits

/-- Whether operand `i` is a qubit that is on. -/
def operandOn (t : List Target) (qs : List Bool) (i : ℕ) : Bool := qs.getD ((q t i).getD 0) false

/-- Whether an active instruction turns the sign under outcome `b`. -/
def signStep (op : Op) (t : List Target) (b : Bool) (qs : List Bool) : Bool :=
  match op with
  | .z => operandOn t qs 0
  | .cz => operandOn t qs 0 && operandOn t qs 1
  | .ccz => operandOn t qs 0 && (operandOn t qs 1 && operandOn t qs 2)
  | .neg => true
  | .r | .hmr => operandOn t qs 0 && b
  | _ => false

namespace State

variable {s s' : State} {i : ℕ} {v : Bool}

theorem bits_writeQubit (h : s.writeQubit i v = some s') : s'.bits = s.bits := by
  obtain ⟨_, rfl⟩ := writeQubit_eq_some.mp h
  rfl

theorem bits_xorQubit (h : s.xorQubit i v = some s') : s'.bits = s.bits := by
  obtain ⟨_, _, h⟩ := xorQubit_eq_some.mp h
  exact bits_writeQubit h

theorem bits_writeBit (h : s.writeBit i v = some s') : s'.bits = s.bits.set i v := by
  obtain ⟨_, rfl⟩ := writeBit_eq_some.mp h
  rfl

theorem phase_writeQubit (h : s.writeQubit i v = some s') : s'.phase = s.phase := by
  obtain ⟨_, rfl⟩ := writeQubit_eq_some.mp h
  rfl

theorem phase_xorQubit (h : s.xorQubit i v = some s') : s'.phase = s.phase := by
  obtain ⟨_, _, h⟩ := xorQubit_eq_some.mp h
  exact phase_writeQubit h

theorem phase_writeBit (h : s.writeBit i v = some s') : s'.phase = s.phase := by
  obtain ⟨_, rfl⟩ := writeBit_eq_some.mp h
  rfl

end State

section After

variable {inst : Instruction} {insts : List Instruction} {s s' u u' : State} {b : Bool}
  {M : Type} [MeasureSource M] {m m' : M} {op : Op} {t : List Target}

theorem exec_bits (h : Exec t s m op s' m') : s'.bits = bitsStep op t (nextBit m).1 s.bits := by
  cases h with
  | x _ hs => exact State.bits_xorQubit hs
  | cx _ _ _ hs => exact State.bits_xorQubit hs
  | ccx _ _ _ _ hs => exact State.bits_xorQubit hs
  | z => rfl
  | cz => rfl
  | ccz => rfl
  | neg => rfl
  | swap _ _ _ _ hs hs' => exact (State.bits_writeQubit hs').trans (State.bits_writeQubit hs)
  | rOff _ _ hs => exact (State.bits_writeQubit hs).trans rfl
  | rOn _ _ hs => exact (State.bits_writeQubit hs).trans rfl
  | hmr _ h1 _ hs hs' =>
    rw [State.bits_writeQubit hs', State.bits_writeBit hs, bitsStep, h1]
    rfl
  | bitInvert h0 hv hs => simp [State.bits_writeBit hs, bitsStep, h0, hv]
  | bitStore0 h0 hs => simp [State.bits_writeBit hs, bitsStep, h0]
  | bitStore1 h0 hs => simp [State.bits_writeBit hs, bitsStep, h0]
  | skip hop h0 hx =>
    unfold bitsStep
    rw [h0]
    rename_i y
    cases y with
    | bit k => exact absurd rfl (hx k)
    | qubit k => rcases hop with rfl | rfl | rfl <;> rfl
    | register k => rcases hop with rfl | rfl | rfl <;> rfl

theorem operandOn_eq {i a : ℕ} (h : q t i = some a) (qs : List Bool) :
    operandOn t qs i = qs.getD a false := by rw [operandOn, h, Option.getD_some]

theorem exec_sign (h : Exec t s m op s' m') :
    s'.phase = (s.phase ^^ signStep op t (nextBit m).1 s.qubits) := by
  cases h with
  | x _ hs => simp [State.phase_xorQubit hs, signStep]
  | cx _ _ _ hs => simp [State.phase_xorQubit hs, signStep]
  | ccx _ _ _ _ hs => simp [State.phase_xorQubit hs, signStep]
  | z h0 hv => simp [signStep, operandOn_eq h0, State.allOn_eq hv, State.xorPhase]
  | cz h0 h1 hv =>
    simp [signStep, operandOn_eq h0, operandOn_eq h1, State.allOn_eq hv, State.xorPhase]
  | ccz h0 h1 h2 hv =>
    simp [signStep, operandOn_eq h0, operandOn_eq h1, operandOn_eq h2, State.allOn_eq hv,
      State.xorPhase]
  | neg => rfl
  | swap _ _ _ _ hs hs' => simp [State.phase_writeQubit hs', State.phase_writeQubit hs, signStep]
  | rOff h0 hv hs =>
    rw [State.phase_writeQubit hs, signStep, operandOn_eq h0, State.getD_of_readQubit hv]
    rfl
  | rOn h0 hv hs =>
    rw [State.phase_writeQubit hs, signStep, operandOn_eq h0, State.getD_of_readQubit hv]
    rfl
  | hmr h0 _ hon hs hs' =>
    rw [State.phase_writeQubit hs', State.phase_writeBit hs, signStep, operandOn_eq h0,
      State.getD_of_readQubit hon]
    rfl
  | bitInvert _ _ hs => simp [State.phase_writeBit hs, signStep]
  | bitStore0 _ hs => simp [State.phase_writeBit hs, signStep]
  | bitStore1 _ hs => simp [State.phase_writeBit hs, signStep]
  | skip hop => rcases hop with rfl | rfl | rfl <;> simp [signStep]

/-- The control state after an instruction. -/
def Control.step (inst : Instruction) (b : Bool) (c : Control) : Control :=
  match bracketOf inst with
  | .opens => { c with condStack := c.condStack ++ [c.bits.getD (inst.condition.getD 0) false] }
  | .closes => { c with condStack := c.condStack.dropLast }
  | .plain => { c with bits := (c.acts inst).elim c.bits (bitsStep · inst.targets b c.bits) }

/-- **What an instruction does**: to the qubits, the sign and the control state. -/
structure Effect (inst : Instruction) (b : Bool) (s s' : State) : Prop where
  qubits : s'.qubits = (s.control.acts inst).elim s.qubits (valueStep · inst.targets s.qubits)
  phase : s'.phase = (s.phase ^^ (s.control.acts inst).elim false
    (signStep · inst.targets b s.qubits))
  control : s'.control = s.control.step inst b

theorem effect_idle (hb : bracketOf inst = .plain) (hacts : s.control.acts inst = none) :
    Effect inst b s s := by
  refine ⟨by rw [hacts]; rfl, by rw [hacts]; exact (Bool.xor_false _).symm, ?_⟩
  rw [Control.step, hb]
  dsimp only
  rw [hacts]
  rfl

theorem after_effect (h : after inst b s = some s') : Effect inst b s s' := by
  obtain ⟨⟨s1, m1⟩, hstep, rfl⟩ := Option.map_eq_some_iff.mp h
  have plain : ∀ op, Op.ofName inst.name = some op → op ≠ .pushCondition ∧ op ≠ .popCondition →
      bracketOf inst = .plain := by
    intro op hop hne
    unfold bracketOf
    rw [hop]
    cases op <;> first | rfl | exact absurd rfl hne.1 | exact absurd rfl hne.2
  cases step_sound hstep with
  | push hop hc =>
    have hb := bracketOf_opens.mpr hop
    have hacts : s.control.acts inst = none := by rw [Control.acts, hb]
    refine ⟨by rw [hacts]; rfl, by rw [hacts]; exact (Bool.xor_false _).symm, ?_⟩
    rw [Control.step, hb, hc]
    rfl
  | pop hop =>
    have hb := bracketOf_closes.mpr hop
    have hacts : s.control.acts inst = none := by rw [Control.acts, hb]
    refine ⟨by rw [hacts]; rfl, by rw [hacts]; exact (Bool.xor_false _).symm, ?_⟩
    rw [Control.step, hb]
    rfl
  | metadata hop hm =>
    have hb := plain _ hop (by rcases hm with rfl | rfl | rfl <;> decide)
    cases ha : s.active inst.condition with
    | false => exact effect_idle hb (by rw [acts_plain hb, ha]; rfl)
    | true =>
      have hacts : s.control.acts inst = _ := (acts_plain hb).trans (by rw [ha, if_pos rfl, hop])
      refine ⟨?_, ?_, ?_⟩
      · rw [hacts]
        rcases hm with rfl | rfl | rfl <;> rfl
      · rw [hacts]
        rcases hm with rfl | rfl | rfl <;> exact (Bool.xor_false _).symm
      · rw [Control.step, hb]
        dsimp only
        rw [hacts]
        rcases hm with rfl | rfl | rfl <;> rfl
  | inactive ha hne =>
    cases hop : Op.ofName inst.name with
    | none =>
      have hb : bracketOf inst = .plain := by rw [bracketOf, hop]
      exact effect_idle hb (by rw [acts_plain hb, ha]; rfl)
    | some op =>
      have hb := plain op hop (hne op hop)
      exact effect_idle hb (by rw [acts_plain hb, ha]; rfl)
  | active ha hop hne he =>
    have hb := plain _ hop hne
    have hacts : s.control.acts inst = _ := (acts_plain hb).trans (by rw [ha, if_pos rfl, hop])
    refine ⟨by rw [hacts]; exact exec_value he, by rw [hacts]; exact exec_sign he, ?_⟩
    rw [Control.step, hb]
    dsimp only
    rw [hacts, State.control, exec_bits he, (exec_frame he).condStack]
    rfl

end After

/-! ## 4. Every trajectory -/

/-- Every trajectory from `s` completes with the sign `+1`. -/
def Safe (insts : List Instruction) (s : State) : Prop :=
  ∀ bits, ∃ r, runInstructions insts s (⟨bits⟩ : Tape) = some r ∧ r.1.phase = false

section Safe

variable {inst : Instruction} {insts : List Instruction} {s s' u u' : State} {b : Bool}

theorem runInstructions_cons {M : Type} [MeasureSource M] (inst : Instruction)
    (insts : List Instruction) (s : State) (m : M) : runInstructions (inst :: insts) s m =
      (step inst s m).bind fun r => runInstructions insts r.1 r.2 := run_cons ..

/-- **A step under either outcome keeps a state safe.** -/
theorem Safe.after (h : Safe (inst :: insts) s) (b : Bool) :
    ∃ s', after inst b s = some s' ∧ Safe insts s' := by
  -- the stream that gives the instruction outcome `b`
  have first : ∀ bits, ∃ r, ((Kickmix.after inst b s).bind fun s' =>
      runInstructions insts s' (⟨bits⟩ : Tape)) = some r ∧ r.1.phase = false := by
    intro bits
    cases ha : asksNow inst s with
    | true =>
      obtain ⟨r, hr, hp⟩ := h (b :: bits)
      rw [runInstructions_cons, step_eq_after, nextBit_tape, ha, if_pos rfl, Option.bind_map] at hr
      exact ⟨r, hr, hp⟩
    | false =>
      obtain ⟨r, hr, hp⟩ := h bits
      rw [runInstructions_cons, step_eq_after, ha, if_neg Bool.false_ne_true, after_idle ha _ b,
        Option.bind_map] at hr
      exact ⟨r, hr, hp⟩
  obtain ⟨r, hr, -⟩ := first []
  obtain ⟨s', hs', -⟩ := Option.bind_eq_some_iff.mp hr
  refine ⟨s', hs', fun bits => ?_⟩
  obtain ⟨r, hr, hp⟩ := first bits
  rw [hs', Option.bind_some] at hr
  exact ⟨r, hr, hp⟩

/-- The two signs are not both safe. -/
theorem Safe.not_flipped (h : Safe insts s) : ¬ Safe insts (s.xorPhase true) := by
  intro h'
  obtain ⟨r, hr, hp⟩ := h []
  obtain ⟨r', hr', hp'⟩ := h' []
  rw [run_xorPhase, hr, Option.map_some, Option.some.injEq] at hr'
  subst hr'
  simp [State.xorPhase, hp] at hp'

/-- Two safe states that agree in qubits and control agree in the sign. -/
theorem Safe.unique (h : Safe insts s) (h' : Safe insts u) (hq : s.qubits = u.qubits)
    (hc : s.control = u.control) : s.phase = u.phase := by
  by_contra hp
  refine h.not_flipped ?_
  obtain ⟨qs, bs, p, cs⟩ := s
  obtain ⟨qs', bs', p', cs'⟩ := u
  cases hq
  cases hc
  have e : p' = (p ^^ true) := by
    cases p <;> cases p' <;> first | rfl | exact absurd rfl hp
  rw [e] at h'
  exact h'

/-- **A safe run resets no qubit that is on.** -/
theorem Safe.reset_off (h : Safe (inst :: insts) s) (hr : s.control.acts inst = some .r) :
    operandOn inst.targets s.qubits 0 = false := by
  by_contra hon
  obtain ⟨s0, h0, safe0⟩ := h.after false
  obtain ⟨s1, h1, safe1⟩ := h.after true
  have e0 := after_effect h0
  have e1 := after_effect h1
  have hsign := safe0.unique safe1 (e0.qubits.trans e1.qubits.symm) ?_
  · rw [e0.phase, e1.phase, hr] at hsign
    simp [signStep, Bool.eq_true_of_not_eq_false hon] at hsign
  · rw [e0.control, e1.control]
    unfold Control.step
    rw [hr]
    rfl

/-! ## 5. Two runs side by side -/

/-- A gate that keeps its target out of its controls. -/
def TargetApart (inst : Instruction) : Prop :=
  (Op.ofName inst.name = some .cx → q inst.targets 1 ≠ q inst.targets 0) ∧
    (Op.ofName inst.name = some .ccx →
      q inst.targets 2 ≠ q inst.targets 0 ∧ q inst.targets 2 ≠ q inst.targets 1)

theorem acts_ofName {c : Control} {op : Op} (h : c.acts inst = some op) :
    Op.ofName inst.name = some op := by
  unfold Control.acts at h
  split at h
  · split_ifs at h
    exact h
  · cases h

theorem after_exec {op : Op} (h : Kickmix.after inst b s = some s')
    (hop : s.control.acts inst = some op) (hg : isGate op = true) :
    ∃ m', Exec inst.targets s (⟨b⟩ : Always) op s' m' := by
  have hname := acts_ofName hop
  obtain ⟨⟨s1, m1⟩, hstep, rfl⟩ := Option.map_eq_some_iff.mp h
  cases step_sound hstep with
  | push h1 =>
    rw [hname] at h1
    cases h1
    cases hg
  | pop h1 =>
    rw [hname] at h1
    cases h1
    cases hg
  | metadata h1 hm =>
    rw [hname] at h1
    cases h1
    rcases hm with rfl | rfl | rfl <;> cases hg
  | inactive ha =>
    exfalso
    unfold Control.acts at hop
    rw [State.active_control, ha] at hop
    split at hop <;> cases hop
  | active _ h1 _ he =>
    rw [hname] at h1
    cases h1
    exact ⟨_, he⟩

theorem set_xor_twice (l : List Bool) (i : ℕ) (v : Bool) :
    (l.set i (l.getD i false ^^ v)).set i ((l.set i (l.getD i false ^^ v)).getD i false ^^ v) = l := by
  by_cases hi : i < l.length
  · rw [List.set_set, List.getD_eq_getElem?_getD, List.getElem?_set_self hi, Option.getD_some,
      Bool.xor_assoc, Bool.xor_self, Bool.xor_false, List.getD_eq_getElem _ _ hi,
      List.set_getElem_self]
  · rw [List.set_eq_of_length_le (Nat.le_of_not_lt hi), List.set_eq_of_length_le (Nat.le_of_not_lt hi)]

theorem getD_set_ne (l : List Bool) {i j : ℕ} (h : i ≠ j) (v : Bool) :
    (l.set i v).getD j false = l.getD j false := by
  rw [List.getD_eq_getElem?_getD, List.getElem?_set_ne h, ← List.getD_eq_getElem?_getD]

theorem getD_set_self {l : List Bool} {i : ℕ} (h : i < l.length) (v : Bool) :
    (l.set i v).getD i false = v := by
  rw [List.getD_eq_getElem?_getD, List.getElem?_set_self h, Option.getD_some]

theorem set_getD_self (l : List Bool) {i : ℕ} (h : i < l.length) : l.set i (l.getD i false) = l := by
  rw [List.getD_eq_getElem _ _ h, List.set_getElem_self]

theorem getD_set_false (l : List Bool) (i : ℕ) : (l.set i false).getD i false = false := by
  by_cases hi : i < l.length
  · exact getD_set_self hi false
  · rw [List.set_eq_of_length_le (Nat.le_of_not_lt hi), List.getD_eq_default _ _ (by omega)]

theorem list_eq_of_getD {l l' : List Bool} (hlen : l.length = l'.length)
    (h : ∀ i, l.getD i false = l'.getD i false) : l = l' := by
  refine List.ext_getElem hlen fun i h1 h2 => ?_
  have := h i
  rwa [List.getD_eq_getElem _ _ h1, List.getD_eq_getElem _ _ h2] at this

theorem swap_twice {l l' : List Bool} {i j : ℕ} (hi : i < l.length) (hj : j < l.length)
    (h : l' = (l.set i (l.getD j false)).set j (l.getD i false)) :
    (l'.set i (l'.getD j false)).set j (l'.getD i false) = l := by
  have hj' : j < (l.set i (l.getD j false)).length := by rwa [List.length_set]
  by_cases hij : i = j
  · subst hij
    rw [List.set_set, set_getD_self l hi] at h
    rw [h, List.set_set, set_getD_self l hi]
  · have e1 : l'.getD j false = l.getD i false := by rw [h, getD_set_self hj']
    have e2 : l'.getD i false = l.getD j false := by
      rw [h, getD_set_ne _ (Ne.symm hij), getD_set_self hi]
    rw [e1, e2, h, List.set_comm _ _ (Ne.symm hij), List.set_set, List.set_set, set_getD_self l hi,
      set_getD_self l hj]

/-- **A gate that keeps its target out of its controls undoes itself** on the qubits. -/
theorem exec_involutive {op : Op} {t : List Target} {M : Type} [MeasureSource M] {m m' : M}
    (h : Exec t s m op s' m') (hne : op ≠ .hmr ∧ op ≠ .r)
    (hcx : op = .cx → q t 1 ≠ q t 0) (hccx : op = .ccx → q t 2 ≠ q t 0 ∧ q t 2 ≠ q t 1) :
    valueStep op t (valueStep op t s.qubits) = s.qubits := by
  cases h with
  | x h0 =>
    simp only [valueStep]
    exact set_xor_twice ..
  | cx h0 h1 =>
    have h := hcx rfl
    simp only [valueStep, h0, h1, Option.getD_some] at h ⊢
    rw [getD_set_ne _ (fun e => h (congrArg some e))]
    exact set_xor_twice ..
  | ccx h0 h1 h2 =>
    have h := hccx rfl
    simp only [valueStep, h0, h1, h2, Option.getD_some] at h ⊢
    rw [getD_set_ne _ (fun e => h.1 (congrArg some e)), getD_set_ne _ (fun e => h.2 (congrArg some e))]
    exact set_xor_twice ..
  | swap h0 h1 ha hb =>
    simp only [valueStep, h0, h1, Option.getD_some]
    exact swap_twice (List.getElem?_eq_some_iff.mp ha).1 (List.getElem?_eq_some_iff.mp hb).1 rfl
  | z => rfl
  | cz => rfl
  | ccz => rfl
  | neg => rfl
  | rOff => exact absurd rfl hne.2
  | rOn => exact absurd rfl hne.2
  | hmr => exact absurd rfl hne.1
  | bitInvert => rfl
  | bitStore0 => rfl
  | bitStore1 => rfl
  | skip hop => rcases hop with rfl | rfl | rfl <;> rfl

/-- Two states that differ in their qubits and their signs only. -/
structure Beside (s u : State) : Prop where
  control : s.control = u.control
  length : s.qubits.length = u.qubits.length

theorem after_length (h : Kickmix.after inst b s = some s') : s'.qubits.length = s.qubits.length := by
  obtain ⟨⟨s', m'⟩, hstep, rfl⟩ := Option.map_eq_some_iff.mp h
  exact (step_shape hstep).qubits

theorem Beside.after (h : Beside s u) (hs : Kickmix.after inst b s = some s')
    (hu : Kickmix.after inst b u = some u') : Beside s' u' where
  control := by rw [(after_effect hs).control, (after_effect hu).control, h.control]
  length := by rw [after_length hs, after_length hu, h.length]

theorem set_getD_of_eq (l : List Bool) {i : ℕ} {v : Bool} (h : l.getD i false = v) :
    l.set i v = l := by
  by_cases hi : i < l.length
  · rw [← h, set_getD_self l hi]
  · exact List.set_eq_of_length_le (Nat.le_of_not_lt hi)

/-- Clearing a bit merges no two lists that agree on it. -/
theorem eq_of_set_eq {l l' : List Bool} {i : ℕ} (h : l.set i false = l'.set i false)
    (hi : l.getD i false = l'.getD i false) : l = l' := by
  rw [← set_getD_of_eq l rfl, ← set_getD_of_eq l' rfl, ← hi, ← List.set_set (a := false), h,
    List.set_set]

/-- One of the two outcomes leaves two signs apart when it turns one of them. -/
theorem kicked_apart : ∀ p p' a a' : Bool, a ≠ a' →
    (p ^^ (a && !(p ^^ p'))) ≠ (p' ^^ (a' && !(p ^^ p'))) := by decide

/-- **A step of two safe runs merges no two states.** -/
theorem Safe.merges_nothing (hs : Safe (inst :: insts) s) (hu : Safe (inst :: insts) u)
    (h : Beside s u) (hap : TargetApart inst) (as : Kickmix.after inst b s = some s')
    (au : Kickmix.after inst b u = some u') (he : s'.qubits = u'.qubits) : s.qubits = u.qubits := by
  rw [(after_effect as).qubits, (after_effect au).qubits, ← h.control] at he
  cases hop : s.control.acts inst with
  | none =>
    rw [hop] at he
    exact he
  | some op =>
    have hop' : u.control.acts inst = some op := h.control ▸ hop
    rw [hop, Option.elim_some, Option.elim_some] at he
    by_cases hmr : op = .hmr
    · subst hmr
      by_cases hon : operandOn inst.targets s.qubits 0 = operandOn inst.targets u.qubits 0
      · exact eq_of_set_eq he hon
      · -- the outcome that turns the sign of one of the two and leaves them with different signs
        exfalso
        obtain ⟨s1, h1, safe1⟩ := hs.after (!(s.phase ^^ u.phase))
        obtain ⟨u1, h2, safe2⟩ := hu.after (!(s.phase ^^ u.phase))
        have e1 := after_effect h1
        have e2 := after_effect h2
        have hsign := safe1.unique safe2 (by rw [e1.qubits, e2.qubits, hop, hop']; exact he)
          (h.after h1 h2).control
        rw [e1.phase, e2.phase, hop, hop'] at hsign
        exact kicked_apart _ _ _ _ hon hsign
    · by_cases hr : op = .r
      · -- both qubits are off
        subst hr
        refine eq_of_set_eq he ?_
        have e1 := hs.reset_off hop
        have e2 := hu.reset_off hop'
        exact e1.trans e2.symm
      · cases hg : isGate op with
        | false => cases op <;> first | exact he | cases hg
        | true =>
          obtain ⟨_, exec⟩ := after_exec as hop hg
          obtain ⟨_, exec'⟩ := after_exec au hop' hg
          have hname := acts_ofName hop
          have hcx : op = .cx → q inst.targets 1 ≠ q inst.targets 0 := by
            rintro rfl
            exact hap.1 hname
          have hccx : op = .ccx → q inst.targets 2 ≠ q inst.targets 0 ∧
              q inst.targets 2 ≠ q inst.targets 1 := by
            rintro rfl
            exact hap.2 hname
          rw [← exec_involutive exec ⟨hmr, hr⟩ hcx hccx, he,
            exec_involutive exec' ⟨hmr, hr⟩ hcx hccx]

/-- A safe run asks for a result exactly at an active HMR. -/
theorem Safe.asksNow_iff (h : Safe (inst :: insts) s) :
    asksNow inst s = true ↔ s.control.acts inst = some .hmr := by
  rw [asksNow]
  cases hop : s.control.acts inst with
  | none => simp
  | some op =>
    rw [Option.any_some, Option.some.injEq]
    cases op
    case hmr => simp [asks]
    case r =>
      have hoff := h.reset_off hop
      rw [operandOn] at hoff
      cases hq : q inst.targets 0 with
      | none => simp [asks, hq]
      | some a =>
        rw [hq, Option.getD_some] at hoff
        rw [asks, hq, Option.any_some, hoff]
        decide
    all_goals simp [asks]

/-- A safe run completes up to any instruction, under any source. -/
theorem Safe.run {M : Type} [MeasureSource M] : ∀ {pre : List Instruction} {s : State} (m : M),
    Safe (pre ++ insts) s → ∃ r, runInstructions pre s m = some r ∧ Safe insts r.1
  | [], s, m, h => ⟨(s, m), rfl, h⟩
  | inst :: pre, s, m, h => by
      have h' : Safe (inst :: (pre ++ insts)) s := h
      obtain ⟨s1, h1, safe1⟩ := h'.after (nextBit m).1
      rw [runInstructions_cons, step_eq_after, h1]
      exact Safe.run _ safe1

/-- **Two safe runs over one source stay side by side, and merge no two states.** -/
theorem Safe.run_beside {M : Type} [MeasureSource M] : ∀ {pre : List Instruction} {s u : State} {m : M}
    {r r' : State × M}, Safe (pre ++ insts) s → Safe (pre ++ insts) u → Beside s u →
      runInstructions pre s m = some r → runInstructions pre u m = some r' →
        Safe insts r.1 ∧ Safe insts r'.1 ∧ Beside r.1 r'.1 ∧ r.2 = r'.2 ∧
          ((∀ inst ∈ pre, TargetApart inst) → r.1.qubits = r'.1.qubits → s.qubits = u.qubits)
  | [], s, u, m, r, r', hs, hu, h, hr, hr' => by
      cases hr
      cases hr'
      exact ⟨hs, hu, h, rfl, fun _ he => he⟩
  | inst :: pre, s, u, m, r, r', hs, hu, h, hr, hr' => by
      have hs' : Safe (inst :: (pre ++ insts)) s := hs
      have hu' : Safe (inst :: (pre ++ insts)) u := hu
      obtain ⟨s1, as, safe1⟩ := hs'.after (nextBit m).1
      obtain ⟨u1, au, safe2⟩ := hu'.after (nextBit m).1
      have hask : asksNow inst s = asksNow inst u := by
        rw [Bool.eq_iff_iff, hs'.asksNow_iff, hu'.asksNow_iff, h.control]
      rw [runInstructions_cons, step_eq_after, as, Option.map_some, Option.bind_some] at hr
      rw [runInstructions_cons, step_eq_after, au, Option.map_some, Option.bind_some, ← hask] at hr'
      obtain ⟨f1, f2, f3, f4, ih⟩ := Safe.run_beside safe1 safe2 (h.after as au) hr hr'
      refine ⟨f1, f2, f3, f4, fun hap he => ?_⟩
      exact hs'.merges_nothing hu' h (hap inst List.mem_cons_self) as au
        (ih (fun i hi => hap i (List.mem_cons_of_mem _ hi)) he)

end Safe

end GroverTax.Kickmix
