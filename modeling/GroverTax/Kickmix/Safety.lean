/-
  File:      GroverTax/Kickmix/Safety.lean
  Subject:   Which runs of a parsed circuit panic: exactly those that reach one of the executor's
             own guards. No index is ever out of range.

  * `SameShape` -- the lengths of a state's vectors, which no step changes; `Frame` -- and the
    condition stack, which only control flow changes;
  * `operandsOk` -- the operands an instruction reads are there and of the kinds it reads;
    `exec_isSome` -- inside the bounds it panics on them only;
  * `Rejects` -- the guards of the executor; `step_eq_none` -- a step panics at a guard;
  * `run_panics_iff` -- the result, for every parsed circuit with ids below `2 ^ 63`.
-/
import GroverTax.Kickmix.Sim
import GroverTax.Kickmix.ParseSpec

namespace GroverTax.Kickmix

open GroverTax.Lib

/-! ## 1. Vectors keep their lengths -/

/-- Two states with vectors of the same lengths. -/
structure SameShape (s s' : State) : Prop where
  qubits : s'.qubits.length = s.qubits.length
  bits : s'.bits.length = s.bits.length

theorem SameShape.refl (s : State) : SameShape s s := ⟨rfl, rfl⟩

/-- What an active instruction leaves alone: the lengths and the condition stack. -/
structure Frame (s s' : State) : Prop extends SameShape s s' where
  condStack : s'.condStack = s.condStack

theorem Frame.refl (s : State) : Frame s s := ⟨.refl s, rfl⟩

theorem Frame.trans {s s' s'' : State} (h : Frame s s') (h' : Frame s' s'') : Frame s s'' :=
  ⟨⟨h'.qubits.trans h.qubits, h'.bits.trans h.bits⟩, h'.condStack.trans h.condStack⟩

namespace State

variable {s s' : State} {i : ℕ} {v : Bool}

theorem writeQubit_eq_some : s.writeQubit i v = some s' ↔
    i < s.qubits.length ∧ s' = { s with qubits := s.qubits.set i v } := by
  unfold writeQubit
  split_ifs with h
  · rw [Option.some.injEq]
    exact ⟨fun e => ⟨h, e.symm⟩, fun e => e.2.symm⟩
  · exact ⟨fun e => absurd e (by simp), fun e => absurd e.1 h⟩

theorem writeBit_eq_some : s.writeBit i v = some s' ↔
    i < s.bits.length ∧ s' = { s with bits := s.bits.set i v } := by
  unfold writeBit
  split_ifs with h
  · rw [Option.some.injEq]
    exact ⟨fun e => ⟨h, e.symm⟩, fun e => e.2.symm⟩
  · exact ⟨fun e => absurd e (by simp), fun e => absurd e.1 h⟩

theorem writeQubit_frame (h : s.writeQubit i v = some s') : Frame s s' := by
  obtain ⟨_, rfl⟩ := writeQubit_eq_some.mp h
  exact ⟨⟨List.length_set .., rfl⟩, rfl⟩

theorem writeBit_frame (h : s.writeBit i v = some s') : Frame s s' := by
  obtain ⟨_, rfl⟩ := writeBit_eq_some.mp h
  exact ⟨⟨rfl, List.length_set ..⟩, rfl⟩

theorem xorQubit_eq_some : s.xorQubit i v = some s' ↔
    ∃ w, s.readQubit i = some w ∧ s.writeQubit i (w ^^ v) = some s' := Option.bind_eq_some_iff

theorem xorQubit_frame (h : s.xorQubit i v = some s') : Frame s s' := by
  obtain ⟨_, _, h⟩ := xorQubit_eq_some.mp h
  exact writeQubit_frame h

theorem readQubit_total (h : i < s.qubits.length) : ∃ v, s.readQubit i = some v :=
  ⟨_, List.getElem?_eq_getElem h⟩

theorem writeQubit_total (h : i < s.qubits.length) (v : Bool) :
    ∃ s', s.writeQubit i v = some s' := ⟨_, writeQubit_eq_some.mpr ⟨h, rfl⟩⟩

theorem writeBit_total (h : i < s.bits.length) (v : Bool) : ∃ s', s.writeBit i v = some s' :=
  ⟨_, writeBit_eq_some.mpr ⟨h, rfl⟩⟩

theorem xorQubit_total (h : i < s.qubits.length) (v : Bool) : ∃ s', s.xorQubit i v = some s' := by
  obtain ⟨w, hw⟩ := readQubit_total h
  obtain ⟨s', hs'⟩ := writeQubit_total h (w ^^ v)
  exact ⟨s', xorQubit_eq_some.mpr ⟨w, hw, hs'⟩⟩

theorem allOn_total : ∀ {is : List ℕ}, (∀ i ∈ is, i < s.qubits.length) → ∃ v, s.allOn is = some v
  | [], _ => ⟨true, rfl⟩
  | i :: is, h => by
      obtain ⟨v, hv⟩ := readQubit_total (h i List.mem_cons_self)
      obtain ⟨w, hw⟩ := allOn_total fun j hj => h j (List.mem_cons_of_mem _ hj)
      cases v with
      | true => exact ⟨w, by simpa [allOn, hv] using hw⟩
      | false => exact ⟨false, by simp [allOn, hv]⟩

end State

/-! ## 2. One instruction -/

/-- The operands `exec` reads are there, and of the kinds it reads. It reads the first ones only, as
    many as the gate has; a bit instruction reads one and skips it when it is no bit. -/
def operandsOk (op : Op) (t : List Target) : Bool :=
  match op with
  | .x | .z | .r => (q t 0).isSome
  | .cx | .cz | .swap => (q t 0).isSome && (q t 1).isSome
  | .ccx | .ccz => (q t 0).isSome && (q t 1).isSome && (q t 2).isSome
  | .neg => true
  | .hmr => (q t 0).isSome && (outputBit t 1).isSome
  | .bitInvert | .bitStore0 | .bitStore1 => !t.isEmpty
  | _ => false

/-- `X q0 q0`, `NEG q0 r5` and `BIT_INVERT q0` run. -/
example : operandsOk .x [.qubit 0, .qubit 0] = true ∧
    operandsOk .neg [.qubit 0, .register 5] = true ∧
    operandsOk .bitInvert [.qubit 0] = true := by
  decide

theorem q_mem {t : List Target} {i x : ℕ} (h : q t i = some x) : .qubit x ∈ t := by
  unfold q at h
  split at h
  · rename_i y hy
    cases h
    exact List.mem_of_getElem? hy
  · cases h

theorem outputBit_mem {t : List Target} {i b : ℕ} (h : outputBit t i = some b) : .bit b ∈ t := by
  unfold outputBit at h
  split at h
  · rename_i y hy
    cases h
    exact List.mem_of_getElem? hy
  · cases h

section Exec

variable {M : Type} [MeasureSource M] {s : State} {t : List Target}

/-- A bit instruction panics only without an operand. -/
theorem withBit_isSome {f : ℕ → Option State} (h : ∀ b, .bit b ∈ t → ∃ s', f b = some s') :
    (withBit t s f).isSome = !t.isEmpty := by
  cases t with
  | nil => rfl
  | cons x t =>
    cases x with
    | bit b =>
      obtain ⟨s', hs'⟩ := h b List.mem_cons_self
      simp [withBit, hs']
    | qubit a => rfl
    | register r => rfl

/-- An operand that is asked for first. -/
theorem isSome_bind_and {A B : Type} {o : Option A} {f : A → Option B} {p : Bool}
    (h : ∀ a, o = some a → (f a).isSome = p) : (o >>= f).isSome = (o.isSome && p) := by
  cases o with
  | none => rfl
  | some a => exact h a rfl

/-- The last operand, after which nothing panics. -/
theorem isSome_bind_total {A B : Type} {o : Option A} {f : A → Option B}
    (h : ∀ a, o = some a → (f a).isSome = true) : (o >>= f).isSome = o.isSome := by
  rw [isSome_bind_and h, Bool.and_true]

/-- **Inside the bounds an instruction panics on the operands it reads only.** -/
theorem exec_isSome (hq : ∀ i, .qubit i ∈ t → i < s.qubits.length)
    (hb : ∀ b, .bit b ∈ t → b < s.bits.length) (op : Op) (m : M) :
    (exec op t s m).isSome = operandsOk op t := by
  have qubit : ∀ {i x}, q t i = some x → x < s.qubits.length := fun h => hq _ (q_mem h)
  cases op with
  | x =>
    refine isSome_bind_total fun a h0 => ?_
    obtain ⟨s', hs'⟩ := State.xorQubit_total (qubit h0) true
    simp [hs']
  | cx =>
    refine isSome_bind_and fun c h0 => isSome_bind_total fun tg h1 => ?_
    obtain ⟨v, hv⟩ := State.readQubit_total (qubit h0)
    obtain ⟨s', hs'⟩ := State.xorQubit_total (qubit h1) v
    simp [hv, hs']
  | ccx =>
    rw [operandsOk, Bool.and_assoc]
    refine isSome_bind_and fun c1 h0 => isSome_bind_and fun c2 h1 =>
      isSome_bind_total fun tg h2 => ?_
    have hall : ∀ i ∈ [c1, c2], i < s.qubits.length := by simp [qubit h0, qubit h1]
    obtain ⟨v, hv⟩ := State.allOn_total hall
    obtain ⟨s', hs'⟩ := State.xorQubit_total (qubit h2) v
    simp [hv, hs']
  | z =>
    refine isSome_bind_total fun a h0 => ?_
    have hall : ∀ i ∈ [a], i < s.qubits.length := by simp [qubit h0]
    obtain ⟨v, hv⟩ := State.allOn_total hall
    simp [hv]
  | cz =>
    refine isSome_bind_and fun a h0 => isSome_bind_total fun b h1 => ?_
    have hall : ∀ i ∈ [a, b], i < s.qubits.length := by simp [qubit h0, qubit h1]
    obtain ⟨v, hv⟩ := State.allOn_total hall
    simp [hv]
  | ccz =>
    rw [operandsOk, Bool.and_assoc]
    refine isSome_bind_and fun a h0 => isSome_bind_and fun b h1 =>
      isSome_bind_total fun c h2 => ?_
    have hall : ∀ i ∈ [a, b, c], i < s.qubits.length := by
      simp [qubit h0, qubit h1, qubit h2]
    obtain ⟨v, hv⟩ := State.allOn_total hall
    simp [hv]
  | neg => rfl
  | swap =>
    refine isSome_bind_and fun a h0 => isSome_bind_total fun b h1 => ?_
    obtain ⟨va, hva⟩ := State.readQubit_total (qubit h0)
    obtain ⟨vb, hvb⟩ := State.readQubit_total (qubit h1)
    obtain ⟨s1, hs1⟩ := State.writeQubit_total (qubit h0) vb
    have hb' : b < s1.qubits.length := by
      rw [(State.writeQubit_frame hs1).qubits]
      exact qubit h1
    obtain ⟨s2, hs2⟩ := State.writeQubit_total hb' va
    simp [hva, hvb, hs1, hs2]
  | r =>
    refine isSome_bind_total fun a h0 => ?_
    obtain ⟨v, hv⟩ := State.readQubit_total (qubit h0)
    have hp : ∀ w, ∃ s', (s.xorPhase w).writeQubit a false = some s' :=
      fun w => State.writeQubit_total (s := s.xorPhase w) (qubit h0) false
    obtain ⟨s', hs'⟩ := hp (if v then nextBit m else (false, m)).1
    simp [hv, hs']
  | hmr =>
    refine isSome_bind_and fun qb h0 => isSome_bind_total fun bit h1 => ?_
    obtain ⟨on, hon⟩ := State.readQubit_total (qubit h0)
    have hbit : bit < (s.xorPhase (on && (nextBit m).1)).bits.length := hb _ (outputBit_mem h1)
    obtain ⟨s1, hs1⟩ := State.writeBit_total hbit (nextBit m).1
    have hqb : qb < s1.qubits.length := by
      rw [(State.writeBit_frame hs1).qubits]
      exact qubit h0
    obtain ⟨s2, hs2⟩ := State.writeQubit_total hqb false
    simp [hon, hs1, hs2]
  | bitInvert =>
    have := withBit_isSome (s := s) (f := fun b => do s.writeBit b (!(← s.bits[b]?))) fun b h => by
      obtain ⟨s', hs'⟩ := State.writeBit_total (hb b h) (!s.bits.get ⟨b, hb b h⟩)
      exact ⟨s', by simpa [List.getElem?_eq_getElem (hb b h)] using hs'⟩
    simpa [exec, operandsOk] using this
  | bitStore0 =>
    have := withBit_isSome (s := s) fun b h => State.writeBit_total (hb b h) false
    simpa [exec, operandsOk] using this
  | bitStore1 =>
    have := withBit_isSome (s := s) fun b h => State.writeBit_total (hb b h) true
    simpa [exec, operandsOk] using this
  | pushCondition => rfl
  | popCondition => rfl
  | register => rfl
  | appendToRegister => rfl
  | debugPrint => rfl

/-- **An active instruction changes no length and not the condition stack.** -/
theorem exec_frame {op : Op} {s' : State} {m m' : M} (h : Exec t s m op s' m') :
    Frame s s' := by
  have phase : ∀ v, Frame s (s.xorPhase v) := fun v => ⟨⟨rfl, rfl⟩, rfl⟩
  cases h with
  | x _ hs => exact State.xorQubit_frame hs
  | cx _ _ _ hs => exact State.xorQubit_frame hs
  | ccx _ _ _ _ hs => exact State.xorQubit_frame hs
  | z => exact phase _
  | cz => exact phase _
  | ccz => exact phase _
  | neg => exact phase _
  | swap _ _ _ _ hs hs' => exact (State.writeQubit_frame hs).trans (State.writeQubit_frame hs')
  | rOff _ _ hs => exact (phase _).trans (State.writeQubit_frame hs)
  | rOn _ _ hs => exact (phase _).trans (State.writeQubit_frame hs)
  | hmr _ _ _ hs hs' =>
    exact ((phase _).trans (State.writeBit_frame hs)).trans (State.writeQubit_frame hs')
  | bitInvert _ _ hs => exact State.writeBit_frame hs
  | bitStore0 _ hs => exact State.writeBit_frame hs
  | bitStore1 _ hs => exact State.writeBit_frame hs
  | skip => exact .refl s

/-- **No step changes the length of a vector.** -/
theorem step_shape {inst : Instruction} {s s' : State} {m m' : M}
    (h : step inst s m = some (s', m')) : SameShape s s' := by
  cases step_sound h with
  | push => exact ⟨rfl, rfl⟩
  | pop => exact ⟨rfl, rfl⟩
  | metadata => exact .refl s
  | inactive => exact .refl s
  | active _ _ _ he => exact (exec_frame he).toSameShape

/-- A run keeps the lengths of the vectors. -/
theorem run_shape {insts : List Instruction} {s : State} {m : M} {r : State × M}
    (h : runInstructions insts s m = some r) : SameShape s r.1 := by
  refine run_inv (I := fun r => SameShape s r.1) ?_ (.refl s) h
  rintro inst - ⟨s1, m1⟩ ⟨s2, m2⟩ hs1 hstep
  have hs2 := step_shape hstep
  exact ⟨hs2.qubits.trans hs1.qubits, hs2.bits.trans hs1.bits⟩

end Exec

/-! ## 3. The guards -/

/-- The executor refuses an instruction: a PUSH_CONDITION without its bit, or an active
    instruction with an unknown name, or without the operands it reads. -/
def Rejects (inst : Instruction) (s : State) : Prop :=
  match Op.ofName inst.name with
  | some .pushCondition => inst.condition = none
  | some .popCondition | some .register | some .appendToRegister | some .debugPrint => False
  | some op => s.active inst.condition = true ∧ operandsOk op inst.targets = false
  | none => s.active inst.condition = true

section Guards

variable {M : Type} [MeasureSource M]

/-- **A step inside the bounds panics exactly at a guard.** -/
theorem step_eq_none {inst : Instruction} {s : State} (m : M)
    (h : InBounds s.qubits.length s.bits.length inst) : step inst s m = none ↔ Rejects inst s := by
  have hexec : ∀ op, (exec op inst.targets s m).isSome = operandsOk op inst.targets :=
    fun op => exec_isSome h.qubit h.bit op m
  have hactive : ∀ op, (if s.active inst.condition = true then exec op inst.targets s m
      else some (s, m)) = none ↔
        s.active inst.condition = true ∧ operandsOk op inst.targets = false := by
    intro op
    rw [← hexec op]
    split_ifs with ha
    · simp [ha]
    · simp [ha]
  unfold step Rejects
  cases hop : Op.ofName inst.name with
  | none =>
    by_cases ha : s.active inst.condition = true
    · simp [ha]
    · simp [ha]
  | some op =>
    cases op with
    | pushCondition => cases inst.condition <;> simp
    | popCondition => simp
    | register => simp
    | appendToRegister => simp
    | debugPrint => simp
    | x => exact hactive .x
    | cx => exact hactive .cx
    | ccx => exact hactive .ccx
    | z => exact hactive .z
    | cz => exact hactive .cz
    | ccz => exact hactive .ccz
    | neg => exact hactive .neg
    | swap => exact hactive .swap
    | r => exact hactive .r
    | hmr => exact hactive .hmr
    | bitInvert => exact hactive .bitInvert
    | bitStore0 => exact hactive .bitStore0
    | bitStore1 => exact hactive .bitStore1

/-- A run inside the bounds panics exactly when it reaches a guard. -/
theorem runInstructions_eq_none {numQubits numBits : ℕ} {insts : List Instruction}
    (hin : ∀ inst ∈ insts, InBounds numQubits numBits inst) {s : State} (m : M)
    (hq : s.qubits.length = numQubits) (hb : s.bits.length = numBits) :
    runInstructions insts s m = none ↔ ∃ pre inst post s1 m1, insts = pre ++ inst :: post ∧
      runInstructions pre s m = some (s1, m1) ∧ Rejects inst s1 := by
  have hshape : ∀ {pre s1 m1}, runInstructions pre s m = some (s1, m1) →
      s1.qubits.length = numQubits ∧ s1.bits.length = numBits := by
    intro pre s1 m1 hr
    refine run_inv (I := fun sm : State × M => sm.1.qubits.length = numQubits ∧
      sm.1.bits.length = numBits) (fun inst _ sm sm' hI hstep => ?_) ⟨hq, hb⟩ hr
    have := step_shape hstep
    exact ⟨this.qubits.trans hI.1, this.bits.trans hI.2⟩
  have hguard : ∀ {pre inst post s1 m1}, insts = pre ++ inst :: post →
      runInstructions pre s m = some (s1, m1) → (step inst s1 m1 = none ↔ Rejects inst s1) := by
    intro pre inst post s1 m1 e hr
    obtain ⟨h1, h2⟩ := hshape hr
    refine step_eq_none m1 ?_
    rw [h1, h2]
    exact hin inst (by simp [e])
  rw [runInstructions, run_eq_none]
  constructor
  · intro h
    obtain ⟨pre, inst, post, ⟨s1, m1⟩, e, hr, hs⟩ := h
    exact ⟨pre, inst, post, s1, m1, e, hr, (hguard e hr).mp hs⟩
  · intro h
    obtain ⟨pre, inst, post, s1, m1, e, hr, hs⟩ := h
    exact ⟨pre, inst, post, (s1, m1), e, hr, (hguard e hr).mpr hs⟩

/-- **A run of a parsed circuit panics exactly when it reaches an instruction that the executor's
    own guards refuse**: every index the circuit uses is below its counts. -/
theorem run_panics_iff {text : List Char} {c : Circuit} (h : parse text = pure c)
    (hids : ∀ inst ∈ c.instructions, SmallIds inst) :
    (∀ inst ∈ c.instructions, InBounds c.numQubits c.numBits inst) ∧
      (∀ (r : ℕ) (members : List ℕ), c.registers[r]? = some members →
        ∀ q ∈ members, q < c.numQubits) ∧
      ∀ (s : State) (m : M), s.qubits.length = c.numQubits → s.bits.length = c.numBits →
        (run c s m = none ↔ ∃ pre inst post s1 m1, c.instructions = pre ++ inst :: post ∧
          runInstructions pre s m = some (s1, m1) ∧ Rejects inst s1) := by
  have hb := Built.of_parse h
  have hin : ∀ inst ∈ c.instructions, InBounds c.numQubits c.numBits inst :=
    fun inst hi => hb.inBounds hi (hids inst hi)
  exact ⟨hin, fun r members hr q hq => hb.member_lt hids hr hq,
    fun s m hq hbits => runInstructions_eq_none hin m hq hbits⟩

end Guards

/-- The circuit of the text `X q0`. -/
def xCircuit : Circuit := { instructions := [⟨"X", [.qubit 0], none⟩], numQubits := 1 }

theorem run_panics_iff_x :
    run xCircuit (State.new 1 0) (SplitMix64.new 0) = none ↔
      ∃ pre inst post s1 m1, xCircuit.instructions = pre ++ inst :: post ∧
        runInstructions pre (State.new 1 0) (SplitMix64.new 0) = some (s1, m1) ∧
        Rejects inst s1 := by
  have hparse : parse ['X', ' ', 'q', '0'] = pure xCircuit := rfl
  have hids : ∀ inst ∈ xCircuit.instructions, SmallIds inst := by
    intro inst hi
    rw [List.mem_singleton.mp hi]
    exact ⟨by simp, by simp, by simp⟩
  exact (run_panics_iff hparse hids).2.2 (State.new 1 0) (SplitMix64.new 0) rfl rfl

/-- The circuit of the text `FOO`. -/
def fooCircuit : Circuit := { instructions := [⟨"FOO", [], none⟩] }

/-- The parser accepts a name that the executor does not know. -/
theorem accepted_circuit_panics :
    ¬ ∀ (text : List Char) (c : Circuit), parse text = pure c →
      ∀ (s : State) (m : SplitMix64), s.qubits.length = c.numQubits → s.bits.length = c.numBits →
        run c s m ≠ none := by
  intro h
  have hparse : parse ['F', 'O', 'O'] = pure fooCircuit := rfl
  exact h _ _ hparse (State.new 0 0) (SplitMix64.new 0) rfl rfl rfl

end GroverTax.Kickmix
