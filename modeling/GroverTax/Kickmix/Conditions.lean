/-
  File:      GroverTax/Kickmix/Conditions.lean
  Subject:   Condition blocks in the simulator of src/kickmix/src/lib.rs: PUSH_CONDITION, a body
             balanced in pushes and pops, POP_CONDITION.

  * `act` -- an instruction that is no push and no pop, when it is active; `step_plain`;
  * `exec_shift` -- an active instruction does not see the sign and the condition stack;
  * `run_inserted` -- one more true entry on the stack changes nothing a body does;
  * `run_suspended` -- under a false entry a body does nothing;
  * **`runInstructions_block`** -- a block is its body when the bit is on at the push, and nothing
    otherwise.
-/
import GroverTax.Kickmix.Sim
import GroverTax.Lib.Brackets

namespace GroverTax.Kickmix

open GroverTax.Lib

/-! ## 1. Brackets -/

def bracketOf (inst : Instruction) : Bracket :=
  match Op.ofName inst.name with
  | some .pushCondition => .opens
  | some .popCondition => .closes
  | _ => .plain

theorem bracketOf_opens {inst : Instruction} :
    bracketOf inst = .opens ↔ Op.ofName inst.name = some .pushCondition := by
  unfold bracketOf
  split <;> simp_all

theorem bracketOf_closes {inst : Instruction} :
    bracketOf inst = .closes ↔ Op.ofName inst.name = some .popCondition := by
  unfold bracketOf
  split <;> simp_all

section Step

variable {M : Type} [MeasureSource M] {inst : Instruction} {s : State} {m : M}

/-- An active instruction that is no push and no pop. -/
def act (inst : Instruction) (s : State) (m : M) : Option (State × M) :=
  match Op.ofName inst.name with
  | some .register | some .appendToRegister | some .debugPrint => some (s, m)
  | op => op.bind fun op => exec op inst.targets s m

theorem step_opens (h : bracketOf inst = .opens) :
    step inst s m = inst.condition.map fun bit =>
      ({ s with condStack := s.condStack ++ [s.getBit bit] }, m) := by
  unfold step
  rw [bracketOf_opens.mp h]
  cases inst.condition <;> rfl

theorem step_closes (h : bracketOf inst = .closes) :
    step inst s m = some ({ s with condStack := s.condStack.dropLast }, m) := by
  unfold step
  rw [bracketOf_closes.mp h]

/-- Metadata does nothing, so it does not matter that it ignores the condition stack. -/
theorem step_plain (h : bracketOf inst = .plain) :
    step inst s m = if s.active inst.condition then act inst s m else some (s, m) := by
  unfold step act
  split
  · rename_i hop
    rw [bracketOf_opens.mpr hop] at h
    cases h
  · rename_i hop
    rw [bracketOf_closes.mpr hop] at h
    cases h
  all_goals simp_all

end Step

/-! ## 2. What an active instruction does not see -/

/-- The state with the sign turned by `d` and another condition stack. -/
def State.shift (d : Bool) (stack : List Bool) (s : State) : State :=
  { s with phase := s.phase ^^ d, condStack := stack }

namespace State

variable {d : Bool} {stack : List Bool} {s : State}

@[simp] theorem shift_qubits : (s.shift d stack).qubits = s.qubits := rfl

@[simp] theorem shift_bits : (s.shift d stack).bits = s.bits := rfl

@[simp] theorem shift_condStack : (s.shift d stack).condStack = stack := rfl

@[simp] theorem shift_getBit (b : ℕ) : (s.shift d stack).getBit b = s.getBit b := rfl

@[simp] theorem shift_readQubit (i : ℕ) : (s.shift d stack).readQubit i = s.readQubit i := rfl

@[simp] theorem shift_allOn : ∀ is : List ℕ, (s.shift d stack).allOn is = s.allOn is
  | [] => rfl
  | i :: is => by rw [allOn, allOn, shift_readQubit, shift_allOn is]

theorem shift_writeQubit (i : ℕ) (v : Bool) :
    (s.shift d stack).writeQubit i v = (s.writeQubit i v).map (shift d stack) := by
  unfold writeQubit
  rw [shift_qubits]
  split_ifs <;> rfl

theorem shift_writeBit (i : ℕ) (v : Bool) :
    (s.shift d stack).writeBit i v = (s.writeBit i v).map (shift d stack) := by
  unfold writeBit
  rw [shift_bits]
  split_ifs <;> rfl

theorem shift_xorQubit (i : ℕ) (v : Bool) :
    (s.shift d stack).xorQubit i v = (s.xorQubit i v).map (shift d stack) := by
  unfold xorQubit
  rw [shift_readQubit]
  cases s.readQubit i with
  | none => rfl
  | some w => exact shift_writeQubit i _

theorem shift_xorPhase (v : Bool) :
    (s.shift d stack).xorPhase v = (s.xorPhase v).shift d stack := by
  simp only [xorPhase, shift, Bool.xor_right_comm]

theorem active_eq (s : State) (condition : Option ℕ) :
    s.active condition = (s.condStack.all id && condition.all s.getBit) := by
  cases condition <;> rfl

/-- One more true entry changes nothing. -/
theorem active_inserted {base ext : List Bool} (h : s.condStack = base ++ ext)
    (condition : Option ℕ) :
    (s.shift d (base ++ true :: ext)).active condition = s.active condition := by
  rw [active_eq, active_eq, h, shift_condStack, List.all_append, List.all_append, List.all_cons]
  rfl

/-- A false entry turns everything off. -/
theorem active_of_false {condition : Option ℕ} (h : false ∈ s.condStack) :
    s.active condition = false := by
  rw [active_eq, Bool.and_eq_false_iff]
  exact Or.inl (List.all_eq_false.mpr ⟨false, h, by simp⟩)

end State

section Shift

variable {M : Type} [MeasureSource M] {d : Bool} {stack : List Bool} {s : State} {m : M}

theorem shift_withBit (t : List Target) {f g : ℕ → Option State}
    (h : ∀ b, f b = (g b).map (State.shift d stack)) :
    withBit t (s.shift d stack) f = (withBit t s g).map (State.shift d stack) := by
  unfold withBit
  split <;> simp_all

/-- **An active instruction does not see the sign and the condition stack.** -/
theorem exec_shift (op : Op) (t : List Target) :
    exec op t (s.shift d stack) m =
      (exec op t s m).map fun r => (r.1.shift d stack, r.2) := by
  have hbit : ∀ {f g : ℕ → Option State}, (∀ b, f b = (g b).map (State.shift d stack)) →
      (withBit t (s.shift d stack) f).map (fun s => (s, m)) =
        ((withBit t s g).map fun s => (s, m)).map fun r => (r.1.shift d stack, r.2) := by
    intro f g h
    rw [shift_withBit t h, Option.map_map, Option.map_map]
    rfl
  cases op
  case bitInvert =>
    refine hbit fun b => ?_
    rw [State.shift_bits]
    cases s.bits[b]? with
    | none => rfl
    | some v => exact State.shift_writeBit b _
  case bitStore0 => exact hbit fun b => State.shift_writeBit b false
  case bitStore1 => exact hbit fun b => State.shift_writeBit b true
  all_goals
    simp only [exec, Option.bind_eq_bind, Option.pure_def, Option.map_bind, Function.comp_def,
      Option.map_some, Option.map_none, State.shift_readQubit, State.shift_allOn,
      State.shift_xorQubit, State.shift_writeQubit, State.shift_writeBit, State.shift_xorPhase,
      Option.bind_map]

theorem act_shift (inst : Instruction) :
    act inst (s.shift d stack) m = (act inst s m).map fun r => (r.1.shift d stack, r.2) := by
  unfold act
  split
  · rfl
  · rfl
  · rfl
  · cases Op.ofName inst.name with
    | none => rfl
    | some op => exact exec_shift op inst.targets

/-- It leaves the condition stack alone. -/
theorem act_condStack {inst : Instruction} {r : State × M} (h : act inst s m = some r) :
    r.1.condStack = s.condStack := by
  have hs : s.shift false s.condStack = s := by simp [State.shift]
  rw [← hs, act_shift] at h
  obtain ⟨r', -, rfl⟩ := Option.map_eq_some_iff.mp h
  rfl

end Shift

/-! ## 3. Blocks -/

section Blocks

variable {M : Type} [MeasureSource M]

/-- The second state is the first without one true entry, `d` entries below the top. -/
def Inserted (base : List Bool) (d : ℕ) (r r' : State × M) : Prop :=
  ∃ ext, ext.length = d ∧ r'.1.condStack = base ++ ext ∧
    r = (r'.1.shift false (base ++ true :: ext), r'.2)

/-- **One more true entry changes nothing a body does.** -/
theorem run_inserted {base : List Bool} {body : List Instruction} (hb : Balanced bracketOf 0 body)
    {r r' : State × M} (h : Inserted base 0 r r') :
    Option.Rel (Inserted base 0) (runInstructions body r.1 r.2) (runInstructions body r'.1 r'.2) := by
  refine run_rel ?_ ?_ ?_ hb le_rfl h
  · rintro d - inst _ ⟨s, m⟩ ho ⟨ext, rfl, hs, rfl⟩
    rw [step_opens ho, step_opens ho]
    cases inst.condition with
    | none => exact .none
    | some b =>
      refine .some ⟨ext ++ [s.getBit b], List.length_append, ?_, ?_⟩
      · rw [← List.append_assoc, ← hs]
      · simp only [State.shift, List.append_assoc, List.cons_append]
        rfl
  · rintro d inst _ ⟨s, m⟩ hc ⟨ext, hd, hs, rfl⟩
    have hne : ext ≠ [] := List.ne_nil_of_length_eq_add_one hd
    rw [step_closes hc, step_closes hc]
    refine .some ⟨ext.dropLast, ?_, ?_, ?_⟩
    · rw [List.length_dropLast, hd, Nat.add_sub_cancel]
    · rw [hs, List.dropLast_append_of_ne_nil hne]
    · simp only [State.shift, List.dropLast_append_of_ne_nil (List.cons_ne_nil true ext),
        List.dropLast_cons_of_ne_nil hne]
  · rintro d inst _ ⟨s, m⟩ hp ⟨ext, hd, hs, rfl⟩
    rw [step_plain hp, step_plain hp, State.active_inserted hs]
    split_ifs with ha
    · rw [act_shift]
      cases hr : act inst s m with
      | none => exact .none
      | some r => exact .some ⟨ext, hd, (act_condStack hr).trans hs, rfl⟩
    · exact .some ⟨ext, hd, hs, rfl⟩

/-- **A balanced body gives the condition stack back.** -/
theorem run_condStack {body : List Instruction} (hb : Balanced bracketOf 0 body) {s : State} {m : M}
    {r : State × M} (h : runInstructions body s m = some r) : r.1.condStack = s.condStack := by
  have hins : Inserted s.condStack 0 (s.shift false (s.condStack ++ [true]), m) (s, m) :=
    ⟨[], rfl, (List.append_nil _).symm, rfl⟩
  have hrel := run_inserted hb hins
  rw [h] at hrel
  obtain ⟨r', -, ext, hlen, hs, -⟩ := rel_some_iff.mp hrel
  rw [hs, List.length_eq_zero_iff.mp hlen, List.append_nil]

/-- The check of PUSH_CONDITION. -/
def namesBit (inst : Instruction) : Option Unit :=
  if bracketOf inst = .opens then inst.condition.map fun _ => () else some ()

/-- The first state with a false entry on its stack, `d` entries below the top. -/
def Suspended (base : List Bool) (r0 : State × M) (d : ℕ) (r : State × M) (_ : Unit) : Prop :=
  ∃ ext, ext.length = d ∧ r = (r0.1.shift false (base ++ false :: ext), r0.2)

/-- **Under a false entry a body only checks its pushes.** -/
theorem run_suspended {base : List Bool} {body : List Instruction} (hb : Balanced bracketOf 0 body)
    {r0 r : State × M} (h : Suspended base r0 0 r ()) :
    Option.Rel (Suspended base r0 0) (runInstructions body r.1 r.2)
      (Lib.run (fun _ inst => namesBit inst) () body) := by
  refine run_rel ?_ ?_ ?_ hb le_rfl h
  · rintro d - inst _ _ ho ⟨ext, rfl, rfl⟩
    rw [step_opens ho, namesBit, if_pos ho]
    cases inst.condition with
    | none => exact .none
    | some b =>
      refine .some ⟨ext ++ [r0.1.getBit b], List.length_append, ?_⟩
      simp only [State.shift, List.append_assoc, List.cons_append]
      rfl
  · rintro d inst _ _ hc ⟨ext, hd, rfl⟩
    have hne : ext ≠ [] := List.ne_nil_of_length_eq_add_one hd
    rw [step_closes hc, namesBit, if_neg (by rw [hc]; decide)]
    refine .some ⟨ext.dropLast, ?_, ?_⟩
    · rw [List.length_dropLast, hd, Nat.add_sub_cancel]
    · simp only [State.shift, List.dropLast_append_of_ne_nil (List.cons_ne_nil false ext),
        List.dropLast_cons_of_ne_nil hne]
  · rintro d inst _ _ hp ⟨ext, hd, rfl⟩
    rw [step_plain hp, State.active_of_false (by simp), if_neg Bool.false_ne_true, namesBit,
      if_neg (by rw [hp]; decide)]
    exact .some ⟨ext, hd, rfl⟩

/-- PUSH_CONDITION if `b`, the body, POP_CONDITION. -/
def conditionBlock (b : ℕ) (body : List Instruction) : List Instruction :=
  ⟨Op.pushCondition.name, [], some b⟩ :: body ++ [⟨Op.popCondition.name, [], none⟩]

/-- A block pushes the bit, runs its body and pops. -/
theorem runInstructions_conditionBlock (b : ℕ) (body : List Instruction) (s : State) (m : M) :
    runInstructions (conditionBlock b body) s m =
      (runInstructions body { s with condStack := s.condStack ++ [s.getBit b] } m).map fun r =>
        ({ r.1 with condStack := r.1.condStack.dropLast }, r.2) := by
  have hpush : bracketOf ⟨Op.pushCondition.name, [], some b⟩ = .opens :=
    bracketOf_opens.mpr (Op.ofName_name .pushCondition)
  have hpop : bracketOf ⟨Op.popCondition.name, [], none⟩ = .closes :=
    bracketOf_closes.mpr (Op.ofName_name .popCondition)
  rw [conditionBlock, List.cons_append, runInstructions, run_cons, step_opens hpush,
    Option.map_some, Option.bind_some, run_append]
  change Option.bind (runInstructions body _ m) _ = _
  refine (congrArg _ (funext fun r => ?_)).trans (Option.map_eq_bind ..).symm
  rw [run_cons, step_closes hpop]
  rfl

/-- **A block is its body when the bit is on at the push; otherwise it does nothing, and panics at
    a PUSH_CONDITION of its body without bit.** -/
theorem runInstructions_block {body : List Instruction} (hb : Balanced bracketOf 0 body) (b : ℕ)
    (s : State) (m : M) :
    runInstructions (conditionBlock b body) s m =
      if s.getBit b then runInstructions body s m
      else (Lib.run (fun _ inst => namesBit inst) () body).map fun _ => (s, m) := by
  rw [runInstructions_conditionBlock]
  cases hv : s.getBit b with
  | true =>
    have h : Inserted s.condStack 0 ({ s with condStack := s.condStack ++ [true] }, m) (s, m) :=
      ⟨[], rfl, (List.append_nil _).symm, by simp [State.shift]⟩
    have hrel := run_inserted hb h
    rw [if_pos rfl]
    cases hr : runInstructions body s m with
    | none =>
      rw [hr] at hrel
      rw [rel_none_iff.mp hrel]
      rfl
    | some r' =>
      rw [hr] at hrel
      obtain ⟨r, e, ext, hd, hs, rfl⟩ := rel_some_iff.mp hrel
      obtain rfl := List.length_eq_zero_iff.mp hd
      rw [e, Option.map_some]
      simp [State.shift, ← hs]
  | false =>
    have h : Suspended s.condStack (s, m) 0 ({ s with condStack := s.condStack ++ [false] }, m) () :=
      ⟨[], rfl, by simp [State.shift]⟩
    have hrel := run_suspended hb h
    rw [if_neg Bool.false_ne_true]
    cases hr : Lib.run (fun _ inst => namesBit inst) () body with
    | none =>
      rw [hr] at hrel
      rw [rel_none_iff.mp hrel]
      rfl
    | some u =>
      rw [hr] at hrel
      obtain ⟨r, e, ext, hd, rfl⟩ := rel_some_iff.mp hrel
      obtain rfl := List.length_eq_zero_iff.mp hd
      rw [e, Option.map_some]
      simp [State.shift]

end Blocks

end GroverTax.Kickmix
