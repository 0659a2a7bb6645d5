/-
  File:      GroverTax/Kickmix/Verdict.lean
  Subject:   What the verdict of `check_case` says, for registers whose members are distinct.

  * `layout`, `qubitLayout` -- the registers a text declares, and the qubits among their members;
  * `Verdict` -- the statement about one case, for any layout: `Starts`, one run, `Passes`;
  * `checkCase_eq_none` -- the verdict is the statement about the qubits, `verdict_exact` the same
    for a parsed text; `bit_register_unread` is a register of one bit.
-/
import GroverTax.Kickmix.StatementSound

namespace GroverTax.Kickmix

open GroverTax.Lib

/-! ## 1. Layouts -/

/-- What `APPEND_TO_REGISTER` appends to register `r`. -/
def appended (r : ℕ) (inst : Instruction) : List Target :=
  if inst.name = "APPEND_TO_REGISTER" then
    match inst.targets with
    | [t, .register r'] => if r' = r then [t] else []
    | _ => []
  else []

/-- The members of register `r`, in append order. -/
def membersOf (c : Circuit) (r : ℕ) : List Target := c.instructions.flatMap (appended r)

/-- The registers in ascending order, each with its members. -/
def layout (c : Circuit) : List (ℕ × List Target) :=
  c.registers.keys.map fun r => (r, membersOf c r)

def qubitId : Target → Option ℕ
  | .qubit q => some q
  | _ => none

/-- The qubits of a list of members. -/
def qubitsOf (members : List Target) : List Target := (members.filterMap qubitId).map .qubit

/-- The registers, each with its qubits. -/
def qubitLayout (c : Circuit) : List (ℕ × List Target) :=
  (layout c).map fun p => (p.1, qubitsOf p.2)

/-! ## 2. The statement about one case -/

/-- A qubit or bit that is on. -/
def State.holds (s : State) : Target → Bool
  | .qubit q => s.on q
  | .bit b => s.bits.getD b false
  | .register _ => false

/-- The number a list of members holds, the first member being the lowest bit. -/
def memberValue (s : State) : List Target → ℕ
  | [] => 0
  | t :: members => 2 * memberValue s members + (s.holds t).toNat

/-- Every register holds its input, everything else is off. -/
structure Starts (regs : List (ℕ × List Target)) (c : Circuit) (inputs : List ℕ) (s : State) :
    Prop where
  qubits : s.qubits.length = c.numQubits
  bits : s.bits.length = c.numBits
  members : ∀ p ∈ regs.zipIdx, ∀ j (h : j < p.1.2.length),
    s.holds p.1.2[j] = (inputs.getD p.2 0).testBit j
  others : ∀ t, s.holds t = true → ∃ p ∈ regs, t ∈ p.2
  phase : s.phase = false
  condStack : s.condStack = []

/-- Every register holds its output, every qubit outside the registers is off, the phase is `+1`. -/
structure Passes (regs : List (ℕ × List Target)) (outputs : List ℕ) (s : State) : Prop where
  members : ∀ p ∈ regs.zipIdx, memberValue s p.1.2 = outputs.getD p.2 0 % 2 ^ p.1.2.length
  others : ∀ q, s.on q = true → ∃ p ∈ regs, .qubit q ∈ p.2
  phase : s.phase = false

/-- **The statement about one case.** -/
def Verdict {M : Type} [MeasureSource M] (regs : List (ℕ × List Target)) (c : Circuit)
    (case : FuzzCase) (m : M) : Prop :=
  ∃ s s' m', Starts regs c case.inputs s ∧ run c s m = some (s', m') ∧ Passes regs case.outputs s'

/-- The registers the parser keeps. -/
def qubitRegs (c : Circuit) : List (ℕ × List Target) :=
  c.registers.toList.map fun p => (p.1, p.2.map .qubit)

/-- Two starts of one case are the same state. -/
theorem Starts.unique {regs : List (ℕ × List Target)} {c : Circuit} {inputs : List ℕ}
    {s s' : State} (h : Starts regs c inputs s) (h' : Starts regs c inputs s') : s = s' := by
  have hall : ∀ t, s.holds t = s'.holds t := by
    intro t
    by_cases ht : ∃ p ∈ regs, t ∈ p.2
    · obtain ⟨p, hp, ht⟩ := ht
      obtain ⟨i, hi, rfl⟩ := List.getElem_of_mem hp
      obtain ⟨j, hj, rfl⟩ := List.getElem_of_mem ht
      have hmem : (regs[i], i) ∈ regs.zipIdx :=
        List.mem_zipIdx_iff_getElem?.mpr (List.getElem?_eq_getElem hi)
      rw [h.members _ hmem j hj, h'.members _ hmem j hj]
    · have hoff : ∀ {t' : State}, Starts regs c inputs t' → t'.holds t = false :=
        fun hs => Bool.eq_false_of_not_eq_true fun hn => ht (hs.others t hn)
      rw [hoff h, hoff h']
  have hlist : ∀ {a b : List Bool}, a.length = b.length →
      (∀ i, a.getD i false = b.getD i false) → a = b := by
    refine fun hlen he => List.ext_getElem hlen fun i h1 h2 => ?_
    have := he i
    rwa [List.getD_eq_getElem _ _ h1, List.getD_eq_getElem _ _ h2] at this
  have hq : s.qubits = s'.qubits :=
    hlist (h.qubits.trans h'.qubits.symm) fun i => hall (.qubit i)
  have hb : s.bits = s'.bits := hlist (h.bits.trans h'.bits.symm) fun i => hall (.bit i)
  obtain ⟨qs, bs, ph, cs⟩ := s
  obtain ⟨qs', bs', ph', cs'⟩ := s'
  have e2 := h.phase.trans h'.phase.symm
  have e3 := h.condStack.trans h'.condStack.symm
  dsimp only at hq hb e2 e3
  rw [hq, hb, e2, e3]

/-! ## 3. Loading and reading every register -/

section Registers

variable {c : Circuit} {case : FuzzCase} {s s' : State} {members : List ℕ}

/-- The registers of a list are the circuit's. -/
def Declared (c : Circuit) (l : List (ℕ × List ℕ)) : Prop := ∀ p ∈ l, c.registers[p.1]? = some p.2

/-- A register whose members are qubits of the state, not too many to be a `u128`. -/
def Fits (n : ℕ) (members : List ℕ) : Prop := members.length ≤ 128 ∧ ∀ q ∈ members, q < n

theorem loadMembers_total {value : ℕ} : ∀ {members : List ℕ} {j : ℕ} {s : State},
    (∀ q ∈ members, q < s.qubits.length) → j + members.length ≤ 128 →
      ∃ s', loadMembers value j members s = some s'
  | [], _, s, _, _ => ⟨s, rfl⟩
  | q :: members, j, s, hq, hj => by
      rw [List.forall_mem_cons] at hq
      rw [List.length_cons] at hj
      obtain ⟨s1, h1⟩ := State.writeQubit_total hq.1 (value.testBit j)
      have hlen := (State.writeQubit_frame h1).qubits
      obtain ⟨s', h'⟩ := @loadMembers_total value members (j + 1) s1
        (fun q hm => by rw [hlen]; exact hq.2 q hm) (by omega)
      exact ⟨s', by rw [loadMembers, if_pos (by omega), h1]; exact h'⟩

/-- A load that returns has found every member. -/
theorem loadMembers_lt {value : ℕ} : ∀ {members : List ℕ} {j : ℕ} {s s' : State},
    loadMembers value j members s = some s' → ∀ q ∈ members, q < s.qubits.length
  | [], _, _, _, _ => List.forall_mem_nil _
  | q :: members, j, s, s', h => by
      unfold loadMembers at h
      split_ifs at h with hj
      obtain ⟨s1, h1, h⟩ := Option.bind_eq_some_iff.mp h
      have hlen := (State.writeQubit_frame h1).qubits
      rw [List.forall_mem_cons, ← hlen]
      exact ⟨hlen ▸ (State.writeQubit_eq_some.mp h1).1, loadMembers_lt h⟩

theorem readMembers_total : ∀ {members : List ℕ} {j acc : ℕ},
    (∀ q ∈ members, q < s.qubits.length) → j + members.length ≤ 128 →
      ∃ v, readMembers s j members acc = some v
  | [], _, acc, _, _ => ⟨acc, rfl⟩
  | q :: members, j, acc, hq, hj => by
      rw [List.forall_mem_cons] at hq
      rw [List.length_cons] at hj
      obtain ⟨b, hb⟩ := State.readQubit_total hq.1
      have ih : ∀ acc, ∃ v, readMembers s (j + 1) members acc = some v :=
        fun acc => readMembers_total hq.2 (by omega)
      rw [readMembers, hb, Option.bind_eq_bind, Option.bind_some]
      cases b with
      | true => rw [if_pos rfl, if_pos (by omega)]; exact ih _
      | false => rw [if_neg Bool.false_ne_true]; exact ih _

theorem readRegister_eq {r : ℕ} (hr : c.registers[r]? = some members)
    (hfit : Fits s.qubits.length members) : readRegister s c r = some (regValue s members) := by
  obtain ⟨v, hv⟩ := @readMembers_total s members 0 0 hfit.2 (by
    rw [Nat.zero_add]; exact hfit.1)
  rw [readRegister, hr, ← readMembers_zero hv]
  exact hv

theorem loadInputs_total : ∀ {l : List (ℕ × List ℕ)} {k : ℕ} {s : State}, Declared c l →
    (∀ p ∈ l, Fits s.qubits.length p.2) →
      ∃ s', loadInputs c case ((l.map Prod.fst).zipIdx k) s = some s'
  | [], _, s, _, _ => ⟨s, rfl⟩
  | p :: l, k, s, hl, hfit => by
      have hp := hl p List.mem_cons_self
      have hf := hfit p List.mem_cons_self
      obtain ⟨s1, h1⟩ := @loadMembers_total (case.inputs.getD k 0) _ 0 s hf.2 (by
        rw [Nat.zero_add]; exact hf.1)
      obtain ⟨s', h'⟩ := loadInputs_total (l := l) (k := k + 1) (s := s1)
        (fun q hq => hl q (List.mem_cons_of_mem _ hq)) (by
          rw [(loadMembers_frame h1).qubits]
          exact fun q hq => hfit q (List.mem_cons_of_mem _ hq))
      refine ⟨s', ?_⟩
      rw [List.map_cons, List.zipIdx_cons, loadInputs, loadRegister, hp]
      exact Option.bind_eq_some_iff.mpr ⟨s1, h1, h'⟩

/-- What the loop over the registers leaves. -/
structure Loaded (inputs : List ℕ) (k : ℕ) (l : List (ℕ × List ℕ)) (s s' : State) : Prop where
  frame : LoadFrame s s'
  lt : ∀ p ∈ l, ∀ q ∈ p.2, q < s.qubits.length
  members : (l.flatMap Prod.snd).Nodup → ∀ p ∈ l.zipIdx k, ∀ j (h : j < p.1.2.length),
    s'.on p.1.2[j] = (inputs.getD p.2 0).testBit j
  others : ∀ q, q ∉ l.flatMap Prod.snd → s'.on q = s.on q

theorem loadInputs_loaded : ∀ {l : List (ℕ × List ℕ)} {k : ℕ} {s s' : State}, Declared c l →
    loadInputs c case ((l.map Prod.fst).zipIdx k) s = some s' → Loaded case.inputs k l s s'
  | [], _, s, s', _, h => by
      cases h
      exact ⟨⟨rfl, rfl, rfl, rfl⟩, List.forall_mem_nil _, fun _ => List.forall_mem_nil _,
        fun _ _ => rfl⟩
  | p :: l, k, s, s', hl, h => by
      have hp := hl p List.mem_cons_self
      rw [List.map_cons, List.zipIdx_cons, loadInputs, loadRegister, hp] at h
      obtain ⟨s1, h1, h⟩ := Option.bind_eq_some_iff.mp h
      have ih := loadInputs_loaded (fun q hq => hl q (List.mem_cons_of_mem _ hq)) h
      have f1 := loadMembers_frame h1
      refine ⟨⟨ih.frame.qubits.trans f1.qubits, ih.frame.bits.trans f1.bits,
        ih.frame.phase.trans f1.phase, ih.frame.condStack.trans f1.condStack⟩, ?_, ?_, ?_⟩
      · rw [List.forall_mem_cons]
        refine ⟨loadMembers_lt h1, ?_⟩
        rw [← f1.qubits]
        exact ih.lt
      · intro hnd
        rw [List.flatMap_cons, List.nodup_append] at hnd
        rw [List.zipIdx_cons, List.forall_mem_cons]
        refine ⟨fun j hj => ?_, ih.members hnd.2.1⟩
        rw [ih.others _ fun hm => hnd.2.2 _ (List.getElem_mem hj) _ hm rfl,
          loadMembers_spec h1 hnd.1 j hj, Nat.zero_add]
      · intro q hq
        rw [List.flatMap_cons, List.mem_append, not_or] at hq
        rw [ih.others q hq.2, loadMembers_other h1 hq.1]

theorem checkOutputs_none : ∀ {l : List (ℕ × List ℕ)} {k : ℕ}, Declared c l →
    (∀ p ∈ l, Fits s.qubits.length p.2) →
      (checkOutputs c case s ((l.map Prod.fst).zipIdx k) = some none ↔
        ∀ p ∈ l.zipIdx k, regValue s p.1.2 = case.outputs.getD p.2 0 % 2 ^ p.1.2.length)
  | [], _, _, _ => iff_of_true rfl (List.forall_mem_nil _)
  | p :: l, k, hl, hfit => by
      have hp := hl p List.mem_cons_self
      have hf := hfit p List.mem_cons_self
      have ih := checkOutputs_none (k := k + 1) (fun q hq => hl q (List.mem_cons_of_mem _ hq))
        fun q hq => hfit q (List.mem_cons_of_mem _ hq)
      rw [List.map_cons, List.zipIdx_cons, List.zipIdx_cons, List.forall_mem_cons, ← ih,
        checkOutputs, hp, readRegister_eq hp hf]
      show (if regValue s p.2 ≠ case.outputs.getD k 0 &&& outputMask p.2.length then _ else _) = _ ↔ _
      rw [outputMask_and _ hf.1]
      by_cases he : regValue s p.2 = case.outputs.getD k 0 % 2 ^ p.2.length
      · rw [if_neg (not_not.mpr he), and_iff_right he]
      · rw [if_pos he]
        exact iff_of_false (fun h => by cases h) fun h => he h.1

theorem declared_toList (c : Circuit) : Declared c c.registers.toList :=
  fun _ hp => Std.ExtTreeMap.mem_toList_iff_getElem?_eq_some.mp hp

theorem getD_foldl_set_mem {q : ℕ} : ∀ (qs : List ℕ) (l : List Bool), q ∈ qs ∨ l.getD q false = true →
    q < l.length → (qs.foldl (fun l q => l.set q true) l).getD q false = true
  | [], _, h, _ => h.resolve_left List.not_mem_nil
  | p :: qs, l, h, hlt => by
      refine getD_foldl_set_mem qs (l.set p true) ?_ (by rwa [List.length_set])
      rw [List.mem_cons] at h
      by_cases hp : p = q
      · rw [hp, List.getD_eq_getElem?_getD, List.getElem?_set_self hlt]
        exact Or.inr rfl
      · rw [List.getD_eq_getElem?_getD, List.getElem?_set_ne hp, ← List.getD_eq_getElem?_getD]
        exact h.imp_left fun h => h.resolve_left (Ne.symm hp)

theorem unclearedAncilla_none (hlen : s.qubits.length = c.numQubits) :
    unclearedAncilla c s = none ↔ ∀ q, s.on q = true → ∃ p ∈ c.registers.toList, q ∈ p.2 := by
  refine ⟨fun h q => mem_register_of_cleared h, fun h => ?_⟩
  unfold unclearedAncilla
  rw [Option.map_eq_none_iff, List.find?_eq_none]
  rintro ⟨on, q⟩ hmem hon
  have hq := List.mem_zipIdx_iff_getElem?.mp hmem
  have hlt : q < c.numQubits := hlen ▸ (List.getElem?_eq_some_iff.mp hq).1
  rw [Bool.and_eq_true, Bool.not_eq_true'] at hon
  obtain ⟨p, hp, hqp⟩ := h q (by
    rw [State.on, List.getD_eq_getElem?_getD, hq]
    exact hon.1)
  have := getD_foldl_set_mem (c.registers.toList.flatMap Prod.snd)
    (List.replicate c.numQubits false) (Or.inl (List.mem_flatMap.mpr ⟨p, hp, hqp⟩))
    (by rwa [List.length_replicate])
  rw [registerQubits, this] at hon
  cases hon.2

end Registers

/-! ## 4. The verdict -/

section Main

variable {c : Circuit} {case : FuzzCase} {s s' : State} {M : Type} [MeasureSource M] {m m' : M}

/-- **A passed case**: the loads, the run, the reads and the two last tests. -/
theorem checkCase_eq_some_none : checkCase c case m = some none ↔ ∃ s s' m',
    loadInputs c case c.registers.keys.zipIdx (State.new c.numQubits c.numBits) = some s ∧
      run c s m = some (s', m') ∧ checkOutputs c case s' c.registers.keys.zipIdx = some none ∧
      unclearedAncilla c s' = none ∧ s'.phase = false := by
  unfold checkCase
  simp only [Option.bind_eq_bind, Option.bind_eq_some_iff]
  constructor
  · intro h'
    obtain ⟨s, hs, ⟨s', m'⟩, hrun, o, ho, h⟩ := h'
    cases o with
    | some failure => cases h
    | none =>
      dsimp only at h
      split at h
      · cases h
      · rename_i hcl
        refine ⟨s, s', m', hs, hrun, ho, hcl, ?_⟩
        by_contra hp
        rw [if_pos (Bool.eq_true_of_not_eq_false hp)] at h
        cases h
  · intro h'
    obtain ⟨s, s', m', hs, hrun, ho, hcl, hp⟩ := h'
    refine ⟨s, hs, (s', m'), hrun, none, ho, ?_⟩
    dsimp only
    rw [hcl, hp]
    rfl

theorem mem_qubitRegs {q : ℕ} : (∃ p ∈ qubitRegs c, .qubit q ∈ p.2) ↔
    ∃ p ∈ c.registers.toList, q ∈ p.2 := by
  have hmem : ∀ p : ℕ × List ℕ, .qubit q ∈ p.2.map Target.qubit ↔ q ∈ p.2 := by simp
  unfold qubitRegs
  simp only [List.mem_map, exists_exists_and_eq_and, ← hmem]

theorem memberValue_map (s : State) : ∀ members : List ℕ,
    memberValue s (members.map .qubit) = regValue s members
  | [] => rfl
  | q :: members => by
      rw [List.map_cons, memberValue, memberValue_map s members, regValue_cons]
      rfl

theorem forall_zipIdx_qubitRegs {P : (ℕ × List Target) × ℕ → Prop} :
    (∀ p ∈ (qubitRegs c).zipIdx, P p) ↔
      ∀ p ∈ c.registers.toList.zipIdx, P ((p.1.1, p.1.2.map .qubit), p.2) := by
  rw [qubitRegs, List.zipIdx_map, List.forall_mem_map]
  rfl

/-- What the loops over the registers say of the state they leave. -/
theorem starts_of_loaded (hnd : (c.registers.toList.flatMap Prod.snd).Nodup)
    (h : Loaded case.inputs 0 c.registers.toList (State.new c.numQubits c.numBits) s) :
    Starts (qubitRegs c) c case.inputs s where
  qubits := h.frame.qubits.trans List.length_replicate
  bits := by
    rw [h.frame.bits]
    exact List.length_replicate
  members := by
    rw [forall_zipIdx_qubitRegs]
    intro p hp j hj
    rw [List.length_map] at hj
    rw [List.getElem_map]
    exact h.members hnd p hp j hj
  others := by
    rintro (q | b | r) ht
    · rw [mem_qubitRegs]
      by_contra hn
      have hq : q ∉ c.registers.toList.flatMap Prod.snd := fun hm => hn (List.mem_flatMap.mp hm)
      have hon : s.on q = true := ht
      rw [h.others q hq, on_new] at hon
      cases hon
    · have hb : s.bits.getD b false = true := ht
      rw [h.frame.bits, State.new, List.getD_eq_getElem?_getD,
        List.getElem?_getD_replicate_default_eq] at hb
      cases hb
    · cases ht
  phase := h.frame.phase
  condStack := h.frame.condStack

theorem passes_iff (hlen : s'.qubits.length = c.numQubits)
    (hfit : ∀ p ∈ c.registers.toList, Fits c.numQubits p.2) :
    Passes (qubitRegs c) case.outputs s' ↔
      checkOutputs c case s' c.registers.keys.zipIdx = some none ∧
        unclearedAncilla c s' = none ∧ s'.phase = false := by
  have hmem : (∀ p ∈ (qubitRegs c).zipIdx, memberValue s' p.1.2 =
      case.outputs.getD p.2 0 % 2 ^ p.1.2.length) ↔
        checkOutputs c case s' c.registers.keys.zipIdx = some none := by
    rw [forall_zipIdx_qubitRegs, ← Std.ExtTreeMap.map_fst_toList_eq_keys,
      checkOutputs_none (declared_toList c) (by rwa [hlen])]
    refine forall₂_congr fun p _ => ?_
    rw [memberValue_map, List.length_map]
  have hanc : (∀ q, s'.on q = true → ∃ p ∈ qubitRegs c, .qubit q ∈ p.2) ↔
      unclearedAncilla c s' = none := by
    rw [unclearedAncilla_none hlen]
    exact forall₂_congr fun q _ => mem_qubitRegs
  rw [← hmem, ← hanc]
  exact ⟨fun h => ⟨h.members, h.others, h.phase⟩, fun ⟨h1, h2, h3⟩ => ⟨h1, h2, h3⟩⟩

/-- **The verdict is the statement about the registers the parser keeps**, when their members are
    distinct qubits of the circuit. -/
theorem checkCase_eq_none (hfit : ∀ p ∈ c.registers.toList, Fits c.numQubits p.2)
    (hnd : (c.registers.toList.flatMap Prod.snd).Nodup) :
    checkCase c case m = some none ↔ Verdict (qubitRegs c) c case m := by
  have hkeys := Std.ExtTreeMap.map_fst_toList_eq_keys (t := c.registers)
  have hnew : (State.new c.numQubits c.numBits).qubits.length = c.numQubits := List.length_replicate
  rw [checkCase_eq_some_none]
  constructor
  · intro h
    obtain ⟨s, s', m', hload, hrun, hrest⟩ := h
    rw [← hkeys] at hload
    have hs := starts_of_loaded hnd (loadInputs_loaded (declared_toList c) hload)
    exact ⟨s, s', m', hs, hrun, (passes_iff ((run_shape hrun).qubits.trans hs.qubits) hfit).mpr hrest⟩
  · intro h
    obtain ⟨s, s', m', hs, hrun, hpass⟩ := h
    obtain ⟨s1, hload⟩ := @loadInputs_total c case _ 0
      (State.new c.numQubits c.numBits) (declared_toList c) (by rwa [hnew])
    obtain rfl := hs.unique (starts_of_loaded hnd (loadInputs_loaded (declared_toList c) hload))
    rw [hkeys] at hload
    exact ⟨s, s', m', hload, hrun,
      (passes_iff ((run_shape hrun).qubits.trans hs.qubits) hfit).mp hpass⟩

/-- A case that does not panic has found every member. -/
theorem lt_of_checkCase (h : checkCase c case m ≠ none) :
    ∀ p ∈ c.registers.toList, ∀ q ∈ p.2, q < c.numQubits := by
  have hkeys := Std.ExtTreeMap.map_fst_toList_eq_keys (t := c.registers)
  cases hload : loadInputs c case c.registers.keys.zipIdx (State.new c.numQubits c.numBits) with
  | none =>
    refine (h ?_).elim
    unfold checkCase
    dsimp only
    rw [hload]
    rfl
  | some s =>
    rw [← hkeys] at hload
    have hlt := (loadInputs_loaded (declared_toList c) hload).lt
    rwa [State.new, List.length_replicate] at hlt

end Main

/-! ## 5. The registers of a text -/

section Parsed

variable {c : Circuit} {r : ℕ}

theorem getD_declare (registers : Std.ExtTreeMap ℕ (List ℕ)) (inst : Instruction) :
    ((declare registers inst)[r]?).getD [] =
      (registers[r]?).getD [] ++ (appended r inst).filterMap qubitId := by
  have hdef : ∀ r', ((entryOrDefault registers r')[r]?).getD [] = (registers[r]?).getD [] := by
    intro r'
    rw [entryOrDefault, Std.ExtTreeMap.getElem?_alter]
    split_ifs with he
    · rw [Nat.compare_eq_eq.mp he, Option.getD_some]
    · rfl
  unfold declare appended
  split_ifs with h1 h2 h2
  · rw [h1] at h2
    exact absurd h2 (by decide)
  · rcases inst.targets with _ | ⟨_ | _ | r', _ | ⟨_, _⟩⟩
    all_goals simp [hdef]
  · rcases inst.targets with _ | ⟨q | b | r', _ | ⟨_ | _ | r', _ | ⟨_, _⟩⟩⟩
    case cons.qubit.cons.register.nil =>
      dsimp only
      rw [entryPush, Std.ExtTreeMap.getElem?_alter]
      by_cases he : r' = r
      · rw [if_pos (Nat.compare_eq_eq.mpr he), if_pos he, he]
        rfl
      · rw [if_neg fun e => he (Nat.compare_eq_eq.mp e), if_neg he]
        exact (List.append_nil _).symm
    case cons.bit.cons.register.nil =>
      dsimp only
      rw [hdef]
      split_ifs
      all_goals exact (List.append_nil _).symm
    case cons.register.cons.register.nil =>
      dsimp only
      split_ifs
      all_goals exact (List.append_nil _).symm
    all_goals exact (List.append_nil _).symm
  · exact (List.append_nil _).symm

theorem getD_foldl_declare (insts : List Instruction) : ∀ registers : Std.ExtTreeMap ℕ (List ℕ),
    ((insts.foldl declare registers)[r]?).getD [] =
      (registers[r]?).getD [] ++ (insts.flatMap (appended r)).filterMap qubitId := by
  induction insts with
  | nil => exact fun registers => (List.append_nil _).symm
  | cons inst insts ih =>
    intro registers
    rw [List.foldl_cons, ih, getD_declare, List.flatMap_cons, List.filterMap_append,
      List.append_assoc]

/-- **The parser keeps the qubits of each register**, in append order. -/
theorem registers_of_parse {text : List Char} (h : parse text = pure c) :
    ∀ p ∈ c.registers.toList, p.2 = (membersOf c p.1).filterMap qubitId := by
  intro p hp
  have e := getD_foldl_declare (r := p.1) c.instructions ∅
  rwa [← (Built.of_parse h).registers, declared_toList c p hp, Std.ExtTreeMap.getElem?_empty,
    Option.getD_some, Option.getD_none, List.nil_append] at e

theorem layout_eq (c : Circuit) :
    layout c = c.registers.toList.map fun p => (p.1, membersOf c p.1) := by
  rw [layout, ← Std.ExtTreeMap.map_fst_toList_eq_keys, List.map_map]
  rfl

theorem qubitLayout_eq {text : List Char} (h : parse text = pure c) :
    qubitLayout c = qubitRegs c := by
  rw [qubitLayout, layout_eq, List.map_map]
  refine List.map_congr_left fun p hp => ?_
  show (p.1, qubitsOf (membersOf c p.1)) = _
  rw [qubitsOf, ← registers_of_parse h p hp]

/-- **The verdict of a parsed text is the statement about the qubits of its registers.** -/
theorem verdict_exact {M : Type} [MeasureSource M] (text : List Char) (c : Circuit)
    (hparse : parse text = pure c) (hlen : ∀ p ∈ layout c, p.2.length ≤ 128)
    (hnd : ((layout c).flatMap Prod.snd).Nodup) (case : FuzzCase) (m : M)
    (hrun : checkCase c case m ≠ none) :
    checkCase c case m = some none ↔ Verdict (qubitLayout c) c case m := by
  have hregs := registers_of_parse hparse
  have hflat : c.registers.toList.flatMap Prod.snd =
      ((layout c).flatMap Prod.snd).filterMap qubitId := by
    rw [layout_eq, List.flatMap_map, List.filterMap_flatMap]
    exact List.flatMap_congr fun p hp => hregs p hp
  rw [qubitLayout_eq hparse]
  refine checkCase_eq_none (fun p hp => ⟨?_, lt_of_checkCase hrun p hp⟩) ?_
  · rw [hregs p hp]
    refine (List.length_filterMap_le _ _).trans (hlen (p.1, membersOf c p.1) ?_)
    rw [layout_eq]
    exact List.mem_map_of_mem hp
  · rw [hflat]
    refine hnd.filterMap fun t t' q ht ht' => ?_
    cases t <;> cases t' <;> simp_all [qubitId]

end Parsed

/-! ## 6. Bits in a register -/

/-- A bit below the qubit of a register, and a gate on the qubit. -/
def mixedText : List Char :=
  ("APPEND_TO_REGISTER b0 r0\nAPPEND_TO_REGISTER q0 r0\nAPPEND_TO_REGISTER q1 r1\n" ++
    "CX q1 q0").toList

def mixedCircuit : Circuit where
  instructions := [⟨"APPEND_TO_REGISTER", [.bit 0, .register 0], none⟩,
    ⟨"APPEND_TO_REGISTER", [.qubit 0, .register 0], none⟩,
    ⟨"APPEND_TO_REGISTER", [.qubit 1, .register 1], none⟩, ⟨"CX", [.qubit 1, .qubit 0], none⟩]
  registers := ((∅ : Std.ExtTreeMap ℕ (List ℕ)).insert 0 [0]).insert 1 [1]
  numQubits := 2
  numBits := 1

theorem parse_mixedText : parse mixedText = pure mixedCircuit := rfl

/-- From `r0 = 0` and `r1 = 1` to `r0 = 1` and `r1 = 1`, which the verdict passes. -/
theorem verdict_exact_mixed :
    checkCase mixedCircuit ⟨[0, 1], [1, 1]⟩ (SplitMix64.new 0) = some none ↔
      Verdict (qubitLayout mixedCircuit) mixedCircuit ⟨[0, 1], [1, 1]⟩ (SplitMix64.new 0) :=
  verdict_exact mixedText mixedCircuit parse_mixedText (by decide) (by decide) _ _ (by decide)

example : checkCase mixedCircuit ⟨[0, 1], [1, 1]⟩ (SplitMix64.new 0) = some none := by decide

def bitText : List Char := "APPEND_TO_REGISTER b0 r0".toList

def bitCircuit : Circuit where
  instructions := [⟨"APPEND_TO_REGISTER", [.bit 0, .register 0], none⟩]
  registers := (∅ : Std.ExtTreeMap ℕ (List ℕ)).alter 0 fun members => some (members.getD [])
  numBits := 1

theorem parse_bitText : parse bitText = pure bitCircuit := rfl

theorem run_bitCircuit (s : State) (m : SplitMix64) : run bitCircuit s m = some (s, m) := rfl

/-- **A bit that is a member of a register is not read**: the verdict passes a register of one bit
    that should hold 1 and holds 0. -/
theorem bit_register_unread :
    ¬ ∀ (text : List Char) (c : Circuit), parse text = pure c →
      (∀ p ∈ layout c, p.2.length ≤ 128) → ((layout c).flatMap Prod.snd).Nodup →
      ∀ (case : FuzzCase) (m : SplitMix64), case.inputs.length = (layout c).length →
        case.outputs.length = (layout c).length → checkCase c case m ≠ none →
        (checkCase c case m = some none ↔ Verdict (layout c) c case m) := by
  intro h
  have hpass : checkCase bitCircuit ⟨[0], [1]⟩ (SplitMix64.new 0) = some none := by decide
  have hlay : layout bitCircuit = [(0, [.bit 0])] := by decide
  obtain ⟨s, s', m', hs, hrun, hend⟩ := (h bitText bitCircuit parse_bitText (by decide) (by decide)
    ⟨[0], [1]⟩ (SplitMix64.new 0) (by decide) (by decide) (by decide)).mp hpass
  rw [run_bitCircuit] at hrun
  cases hrun
  rw [hlay] at hs hend
  have hin := hs.members ((0, [.bit 0]), 0) List.mem_cons_self 0 Nat.one_pos
  have hout := hend.members ((0, [.bit 0]), 0) List.mem_cons_self
  have hoff : s.holds (.bit 0) = false := hin
  rw [memberValue, hoff] at hout
  cases hout

end GroverTax.Kickmix
