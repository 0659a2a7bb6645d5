/-
  File:      GroverTax/Kickmix/Passing.lean
  Subject:   What it proves that a circuit passes `check_case` of src/kickmix/src/lib.rs on every
             measurement trajectory, for every input of a set.

  * `safe_of_passes` -- the state that `check_case` loads is safe;
  * **`passing_injective`** -- the qubits determine the input at every instruction of every
    trajectory, and the outputs determine it too: a function that is not injective on the set
    cannot pass;
  * **`passing_measures_determined`** -- no R meets a qubit that is on, and HMR measures a qubit
    that the other qubits determine.
-/
import GroverTax.Kickmix.Exhaustive
import GroverTax.Kickmix.RegisterIo

namespace GroverTax.Kickmix

open GroverTax.Lib

/-! ## 1. The state a case starts from -/

/-- The state that `check_case` loads. -/
def initial (c : Circuit) (inputs : List ℕ) : Option State :=
  loadInputs c ⟨inputs, []⟩ c.registers.keys.zipIdx (State.new c.numQubits c.numBits)

/-- The case passes on every trajectory. -/
def PassesAlways (c : Circuit) (case : FuzzCase) : Prop :=
  ∀ bits, checkCase c case (FixedBits.new bits) = some none

/-- Two lists of values that the registers do not tell apart. -/
def SameValues (c : Circuit) (v w : List ℕ) : Prop :=
  ∀ p ∈ c.registers.toList.zipIdx,
    v.getD p.2 0 % 2 ^ p.1.2.length = w.getD p.2 0 % 2 ^ p.1.2.length

section Initial

variable {c : Circuit} {case : FuzzCase} {inputs : List ℕ} {s s' : State}

theorem loadInputs_outputs (outputs outputs' : List ℕ) : ∀ (l : List (ℕ × ℕ)) (s : State),
    loadInputs c ⟨case.inputs, outputs⟩ l s = loadInputs c ⟨case.inputs, outputs'⟩ l s
  | [], _ => rfl
  | (_, _) :: l, s => by
      unfold loadInputs
      exact congrArg _ (funext fun s1 => loadInputs_outputs outputs outputs' l s1)

theorem loadInputs_fits : ∀ {l : List (ℕ × List ℕ)} {k : ℕ} {s s' : State}, Declared c l →
    loadInputs c case ((l.map Prod.fst).zipIdx k) s = some s' → ∀ p ∈ l, Fits s.qubits.length p.2
  | [], _, _, _, _, _ => List.forall_mem_nil _
  | p :: l, k, s, s', hl, h => by
      have hp := hl p List.mem_cons_self
      rw [List.map_cons, List.zipIdx_cons, loadInputs, loadRegister, hp] at h
      obtain ⟨s1, h1, h⟩ := Option.bind_eq_some_iff.mp h
      rw [List.forall_mem_cons]
      refine ⟨loadMembers_fits h1, ?_⟩
      rw [← (loadMembers_frame h1).qubits]
      exact loadInputs_fits (fun q hq => hl q (List.mem_cons_of_mem _ hq)) h

theorem initial_loaded (h : initial c inputs = some s) :
    Loaded inputs 0 c.registers.toList (State.new c.numQubits c.numBits) s ∧
      ∀ p ∈ c.registers.toList, Fits c.numQubits p.2 := by
  rw [initial, ← Std.ExtTreeMap.map_fst_toList_eq_keys] at h
  have hfit := loadInputs_fits (declared_toList c) h
  rw [State.new, List.length_replicate] at hfit
  exact ⟨loadInputs_loaded (declared_toList c) h, hfit⟩

/-- **A passed case**, from its initial state. -/
theorem checkCase_initial {M : Type} [MeasureSource M] {m : M}
    (h : checkCase c case m = some none) : ∃ s s' m', initial c case.inputs = some s ∧
      run c s m = some (s', m') ∧ checkOutputs c case s' c.registers.keys.zipIdx = some none ∧
      unclearedAncilla c s' = none ∧ s'.phase = false := by
  obtain ⟨s, s', m', hload, hrun⟩ := checkCase_eq_some_none.mp h
  exact ⟨s, s', m', (loadInputs_outputs [] case.outputs _ _).trans hload, hrun⟩

/-- A run over a fixed stream, over what is left of the stream. -/
theorem run_tape {bits : List Bool} {r : State × FixedBits}
    (h : run c s (FixedBits.new bits) = some r) :
    runInstructions c.instructions s (⟨bits⟩ : Tape) = some (r.1, r.2.rest) := by
  have hmap := run_unseen FixedBits.nextBit_rest c.instructions s false (FixedBits.new bits)
  have hsign : ∀ t : State, t.xorPhase false = t := fun t => by simp [State.xorPhase]
  rw [run] at h
  rw [hsign, h, Option.map_some, hsign] at hmap
  exact hmap

theorem safe_of_passes (h : PassesAlways c case) (hs : initial c case.inputs = some s) :
    Safe c.instructions s := by
  intro bits
  obtain ⟨s1, s', m', hs1, hrun, -, -, hp⟩ := checkCase_initial (h bits)
  obtain rfl := Option.some.inj (hs.symm.trans hs1)
  exact ⟨(s', m'.rest), run_tape hrun, hp⟩

/-- Two initial states of one circuit differ in their qubits only. -/
theorem initial_beside {inputs' : List ℕ} (h : initial c inputs = some s)
    (h' : initial c inputs' = some s') : Beside s s' ∧ (s.qubits = s'.qubits → s = s') := by
  have f := (initial_loaded h).1.frame
  have f' := (initial_loaded h').1.frame
  have hbits := f.bits.trans f'.bits.symm
  have hstack := f.condStack.trans f'.condStack.symm
  refine ⟨⟨by rw [State.control, State.control, hbits, hstack], f.qubits.trans f'.qubits.symm⟩,
    fun hq => ?_⟩
  obtain ⟨qs, bs, p, cs⟩ := s
  obtain ⟨qs', bs', p', cs'⟩ := s'
  have hphase := f.phase.trans f'.phase.symm
  dsimp only at hq hbits hstack hphase
  rw [hq, hbits, hstack, hphase]

theorem run_initial_length {M : Type} [MeasureSource M] {m : M} {r : State × M}
    (h : initial c inputs = some s) (hrun : run c s m = some r) :
    r.1.qubits.length = c.numQubits := by
  have hshape := run_shape hrun
  rw [hshape.qubits, (initial_loaded h).1.frame.qubits, State.new, List.length_replicate]

end Initial

/-! ## 2. What a passed set of cases proves -/

section Passing

variable {c : Circuit} {I : Set (List ℕ)} {f : List ℕ → List ℕ} {u v : List ℕ}

theorem exists_safe (hpass : ∀ v ∈ I, PassesAlways c ⟨v, f v⟩) (hv : v ∈ I) :
    ∃ s, initial c v = some s ∧ Safe c.instructions s := by
  obtain ⟨s, -, -, hs, -⟩ := checkCase_initial (hpass v hv [])
  exact ⟨s, hs, safe_of_passes (hpass v hv) hs⟩

/-- Two states that hold the same values, with everything else off, have the same qubits. -/
theorem qubits_eq_of_outputs {s s' : State} {o o' i i' : List ℕ}
    (hfit : ∀ p ∈ c.registers.toList, Fits c.numQubits p.2) (hlen : s.qubits.length = c.numQubits)
    (hlen' : s'.qubits.length = c.numQubits)
    (h : checkOutputs c ⟨i, o⟩ s c.registers.keys.zipIdx = some none)
    (h' : checkOutputs c ⟨i', o'⟩ s' c.registers.keys.zipIdx = some none)
    (ha : unclearedAncilla c s = none) (ha' : unclearedAncilla c s' = none)
    (hsame : SameValues c o o') : s.qubits = s'.qubits := by
  rw [← Std.ExtTreeMap.map_fst_toList_eq_keys] at h h'
  rw [checkOutputs_none (declared_toList c) (by rwa [hlen])] at h
  rw [checkOutputs_none (declared_toList c) (by rwa [hlen'])] at h'
  rw [unclearedAncilla_none hlen] at ha
  rw [unclearedAncilla_none hlen'] at ha'
  have hon : ∀ q, s.on q = s'.on q := by
    intro q
    by_cases hq : ∃ p ∈ c.registers.toList, q ∈ p.2
    · obtain ⟨p, hp, hq⟩ := hq
      obtain ⟨k, hk, rfl⟩ := List.getElem_of_mem hp
      obtain ⟨j, hj, rfl⟩ := List.getElem_of_mem hq
      have hmem : (c.registers.toList[k], k) ∈ c.registers.toList.zipIdx :=
        List.mem_zipIdx_iff_getElem?.mpr (List.getElem?_eq_getElem hk)
      have e : regValue s c.registers.toList[k].2 = regValue s' c.registers.toList[k].2 :=
        (h _ hmem).trans ((hsame _ hmem).trans (h' _ hmem).symm)
      rw [← testBit_regValue s hj, e, testBit_regValue s' hj]
    · rw [Bool.eq_false_of_not_eq_true fun hn => hq (ha q hn),
        Bool.eq_false_of_not_eq_true fun hn => hq (ha' q hn)]
  exact list_eq_of_getD (hlen.trans hlen'.symm) hon

/-- **A circuit that passes on every trajectory keeps its inputs apart**: at every instruction,
    under every source, the qubits determine the state that was loaded, and so do the expected
    outputs, up to the widths of the registers. -/
theorem passing_injective (c : Circuit) (hap : ∀ inst ∈ c.instructions, TargetApart inst)
    (I : Set (List ℕ)) (f : List ℕ → List ℕ) (hpass : ∀ v ∈ I, PassesAlways c ⟨v, f v⟩)
    (u : List ℕ) (hu : u ∈ I) (v : List ℕ) (hv : v ∈ I) :
    ∃ s t, initial c u = some s ∧ initial c v = some t ∧
      (∀ (M : Type) [MeasureSource M] (m : M) (k : ℕ), ∃ r r',
        runInstructions (c.instructions.take k) s m = some r ∧
        runInstructions (c.instructions.take k) t m = some r' ∧
        (r.1.qubits = r'.1.qubits → s = t)) ∧
      (SameValues c (f u) (f v) → s = t) := by
  obtain ⟨s, hs, safe⟩ := exists_safe hpass hu
  obtain ⟨t, ht, safe'⟩ := exists_safe hpass hv
  obtain ⟨hbeside, heq⟩ := initial_beside hs ht
  refine ⟨s, t, hs, ht, fun M _ m k => ?_, fun hsame => ?_⟩
  · have hsplit := List.take_append_drop k c.instructions
    rw [← hsplit] at safe safe'
    obtain ⟨r, hr, -⟩ := safe.run m
    obtain ⟨r', hr', -⟩ := safe'.run m
    obtain ⟨-, -, -, -, hne⟩ := safe.run_beside safe' hbeside hr hr'
    exact ⟨r, r', hr, hr', fun he => heq (hne (fun i hi => hap i (List.mem_of_mem_take hi)) he)⟩
  · obtain ⟨s0, s', m', hs0, hrun, hout, hanc, -⟩ := checkCase_initial (hpass u hu [])
    obtain ⟨t0, t', n', ht0, hrun', hout', hanc', -⟩ := checkCase_initial (hpass v hv [])
    obtain rfl := Option.some.inj (hs.symm.trans hs0)
    obtain rfl := Option.some.inj (ht.symm.trans ht0)
    have hfinal := qubits_eq_of_outputs (initial_loaded hs).2 (run_initial_length hs hrun)
      (run_initial_length ht hrun') hout hout' hanc hanc' hsame
    have safe0 : Safe (c.instructions ++ []) s := by rwa [List.append_nil]
    have safe1 : Safe (c.instructions ++ []) t := by rwa [List.append_nil]
    obtain ⟨-, -, -, -, hne⟩ := safe0.run_beside safe1 hbeside hrun hrun'
    exact heq (hne hap hfinal)

/-- **A circuit that passes on every trajectory measures what it may**: an active R meets a qubit
    that is off, and at an active HMR two runs whose other qubits agree agree in the measured one
    too. -/
theorem passing_measures_determined (c : Circuit) (I : Set (List ℕ)) (f : List ℕ → List ℕ)
    (hpass : ∀ v ∈ I, PassesAlways c ⟨v, f v⟩) (M : Type) [MeasureSource M] (m : M)
    (pre post : List Instruction) (inst : Instruction)
    (hsplit : c.instructions = pre ++ inst :: post) (a : ℕ) (hq : q inst.targets 0 = some a)
    (u : List ℕ) (hu : u ∈ I) (v : List ℕ) (hv : v ∈ I) :
    ∃ s t r r', initial c u = some s ∧ initial c v = some t ∧
      runInstructions pre s m = some r ∧ runInstructions pre t m = some r' ∧
      (r.1.control.acts inst = some .r → r.1.on a = false) ∧
      (r.1.control.acts inst = some .hmr → (∀ i, i ≠ a → r.1.on i = r'.1.on i) →
        r.1.on a = r'.1.on a) := by
  obtain ⟨s, hs, safe⟩ := exists_safe hpass hu
  obtain ⟨t, ht, safe'⟩ := exists_safe hpass hv
  rw [hsplit] at safe safe'
  obtain ⟨r, hr, hsafe⟩ := safe.run m
  obtain ⟨r', hr', hsafe'⟩ := safe'.run m
  obtain ⟨-, -, hbeside, -, -⟩ := safe.run_beside safe' (initial_beside hs ht).1 hr hr'
  refine ⟨s, t, r, r', hs, ht, hr, hr', fun hop => ?_, fun hop hrest => ?_⟩
  · have hoff := hsafe.reset_off hop
    rwa [operandOn_eq hq] at hoff
  · obtain ⟨s', as, -⟩ := hsafe.after false
    obtain ⟨t', at', -⟩ := hsafe'.after false
    have hname := acts_ofName hop
    have hap : TargetApart inst := by
      refine ⟨fun h => ?_, fun h => ?_⟩ <;> rw [hname] at h <;> cases h
    have he := hsafe.merges_nothing hsafe' hbeside hap as at' ?_
    · rw [State.on, State.on, he]
    · -- HMR leaves the two runs with the same qubits
      rw [(after_effect as).qubits, (after_effect at').qubits, ← hbeside.control, hop]
      simp only [Option.elim_some, valueStep, hq, Option.getD_some]
      refine list_eq_of_getD (by rw [List.length_set, List.length_set, hbeside.length]) fun i => ?_
      by_cases hi : i = a
      · rw [hi, getD_set_false, getD_set_false]
      · rw [getD_set_ne _ (Ne.symm hi), getD_set_ne _ (Ne.symm hi)]
        exact hrest i hi

end Passing

/-! ## 3. Two circuits -/

/-- A copy of the register, measured away again. -/
def copiedCircuit : Circuit where
  instructions := [⟨"APPEND_TO_REGISTER", [.qubit 0, .register 0], none⟩,
    ⟨"CX", [.qubit 0, .qubit 1], none⟩, ⟨"HMR", [.qubit 1, .bit 0], none⟩,
    ⟨"Z", [.qubit 0], some 0⟩]
  registers := (∅ : Std.ExtTreeMap ℕ (List ℕ)).insert 0 [0]
  numQubits := 2
  numBits := 1

theorem passesAlways_copied : ∀ v ∈ ({[0], [1]} : Set (List ℕ)),
    PassesAlways copiedCircuit ⟨v, v⟩ := by
  rintro v (rfl | rfl) (_ | ⟨b, bits⟩)
  · rfl
  · cases b <;> rfl
  · rfl
  · cases b <;> rfl

theorem passing_injective_copied : ∃ s t, initial copiedCircuit [0] = some s ∧
    initial copiedCircuit [1] = some t ∧ (SameValues copiedCircuit [0] [1] → s = t) := by
  obtain ⟨s, t, hs, ht, -, h⟩ := passing_injective copiedCircuit (by unfold TargetApart; decide)
    {[0], [1]} id passesAlways_copied [0] (Or.inl rfl) [1] (Or.inr rfl)
  exact ⟨s, t, hs, ht, h⟩

/-- At the HMR the copy agrees with the register. -/
theorem passing_measures_determined_copied : ∃ s t r r', initial copiedCircuit [0] = some s ∧
    initial copiedCircuit [1] = some t ∧
    runInstructions (copiedCircuit.instructions.take 2) s (SplitMix64.new 0) = some r ∧
    runInstructions (copiedCircuit.instructions.take 2) t (SplitMix64.new 0) = some r' ∧
    (r.1.control.acts ⟨"HMR", [.qubit 1, .bit 0], none⟩ = some .r → r.1.on 1 = false) ∧
    (r.1.control.acts ⟨"HMR", [.qubit 1, .bit 0], none⟩ = some .hmr →
      (∀ i, i ≠ 1 → r.1.on i = r'.1.on i) → r.1.on 1 = r'.1.on 1) :=
  passing_measures_determined copiedCircuit {[0], [1]} id passesAlways_copied SplitMix64
    (SplitMix64.new 0) (copiedCircuit.instructions.take 2) _ _ rfl 1 rfl [0] (Or.inl rfl) [1]
    (Or.inr rfl)

def aliasedText : List Char := "APPEND_TO_REGISTER q0 r0\nCX q0 q0".toList

/-- A gate on its own control: it clears the register. -/
def aliasedCircuit : Circuit where
  instructions := [⟨"APPEND_TO_REGISTER", [.qubit 0, .register 0], none⟩,
    ⟨"CX", [.qubit 0, .qubit 0], none⟩]
  registers := (∅ : Std.ExtTreeMap ℕ (List ℕ)).insert 0 [0]
  numQubits := 1

/-- **Without the condition on the targets a constant passes**, in a text that the parser accepts. -/
theorem aliased_passes : parse aliasedText = pure aliasedCircuit ∧
    ∀ v ∈ ({[0], [1]} : Set (List ℕ)), PassesAlways aliasedCircuit ⟨v, [0]⟩ := by
  refine ⟨rfl, ?_⟩
  rintro v (rfl | rfl) bits <;> rfl

end GroverTax.Kickmix
