/-
  File:      GroverTax/Kickmix/Coherent.lean
  Subject:   The instructions of docs/kickmix_instruction_set.md on superpositions, and what it
             proves about them that the trajectories of src/kickmix/src/lib.rs pass.

  The document says what a gate does to the parts of a superposition; the simulator follows one
  part, with a sign. `kraus` is the first, for a given list of outcomes, one for each measurement
  that is active.

  * `gateOn`, `measured` -- an operation of the document;
  * `kraus` -- a circuit under a list of outcomes, `paths` -- the lists that fit it;
  * `effect_ket` -- on one ket an instruction is a step of the simulator, times a weight that does
    not depend on the ket; `kraus_ket` -- the same of a run;
  * **`passing_coherent`** -- **a circuit that passes on every trajectory computes its function on
    superpositions**, whatever is measured, and the outcomes say nothing of the superposition.
-/
import GroverTax.Kickmix.Passing
import GroverTax.Lib.Kets

namespace GroverTax.Kickmix

open GroverTax.Lib

noncomputable section

/-! ## 1. The instructions on superpositions -/

/-- A basis state: which qubits are on. -/
abbrev Wires := ℕ → Bool

/-- The gates. Classical instructions do nothing to the qubits. -/
def gateOn (op : Op) (t : List Target) : Amplitudes Wires →ₗ[ℂ] Amplitudes Wires :=
  let a := (q t 0).getD 0
  let b := (q t 1).getD 0
  let c := (q t 2).getD 0
  match op with
  | .x => flipWhere a fun _ => true
  | .cx => flipWhere b fun x => x a
  | .ccx => flipWhere c fun x => x a && x b
  | .z => turn fun x => x a
  | .cz => turn fun x => x a && x b
  | .ccz => turn fun x => x a && (x b && x c)
  | .neg => turn fun _ => true
  | .swap => permute fun x => Function.update (Function.update x a (x b)) b (x a)
  | _ => LinearMap.id

/-- An operation under outcome `b`. -/
def measured (op : Op) (t : List Target) (b : Bool) : Amplitudes Wires →ₗ[ℂ] Amplitudes Wires :=
  match op with
  | .hmr => measureX ((q t 0).getD 0) b
  | .r => measureZ ((q t 0).getD 0) b
  | op => gateOn op t

def measures : Op → Bool
  | .hmr | .r => true
  | _ => false

/-- The instruction measures in this control state. -/
def Control.measures (inst : Instruction) (c : Control) : Bool :=
  (c.acts inst).any Kickmix.measures

def Control.operation (inst : Instruction) (b : Bool) (c : Control) :
    Amplitudes Wires →ₗ[ℂ] Amplitudes Wires :=
  (c.acts inst).elim LinearMap.id (measured · inst.targets b)

/-- **A circuit under a list of outcomes**, one for each measurement; a list that does not fit is no
    branch at all. -/
def kraus : List Instruction → List Bool → Control → Amplitudes Wires →ₗ[ℂ] Amplitudes Wires
  | [], [], _ => LinearMap.id
  | [], _ :: _, _ => 0
  | inst :: insts, [], c =>
      if c.measures inst then 0
      else kraus insts [] (c.step inst false) * c.operation inst false
  | inst :: insts, b :: path, c =>
      if c.measures inst then kraus insts path (c.step inst b) * c.operation inst b
      else kraus insts (b :: path) (c.step inst false) * c.operation inst false

/-- The lists of outcomes that fit. -/
def paths : List Instruction → Control → List (List Bool)
  | [], _ => [[]]
  | inst :: insts, c =>
      if c.measures inst then
        (paths insts (c.step inst false)).map (false :: ·) ++
          (paths insts (c.step inst true)).map (true :: ·)
      else paths insts (c.step inst false)

/-! ## 2. One instruction on one ket -/

def wires (s : State) : Wires := s.on

/-- The amplitude an operation gives to each ket, its sign apart: half the mass for each outcome of
    HMR, everything or nothing for R on a qubit that is off. -/
def weight (op : Op) (b : Bool) : ℂ :=
  match op with
  | .hmr => halfRoot
  | .r => if b then 0 else 1
  | _ => 1

section Instruction

variable {s s' : State} {M : Type} [MeasureSource M] {m m' : M} {op : Op} {t : List Target} {i : ℕ}
  {v : Bool}

theorem wires_writeQubit (h : s.writeQubit i v = some s') :
    wires s' = Function.update (wires s) i v := by
  funext j
  rw [wires, State.on_writeQubit h, Function.update_apply]
  rfl

theorem wires_xorQubit (h : s.xorQubit i v = some s') :
    wires s' = Function.update (wires s) i (wires s i ^^ v) := by
  obtain ⟨w, hw, h⟩ := State.xorQubit_eq_some.mp h
  rw [wires_writeQubit h, wires, State.readQubit_eq hw]

theorem wires_writeBit (h : s.writeBit i v = some s') : wires s' = wires s := by
  obtain ⟨_, rfl⟩ := State.writeBit_eq_some.mp h
  rfl

theorem allOn_wires {is : List ℕ} (h : s.allOn is = some v) : v = is.all (wires s) :=
  State.allOn_eq h

/-- **On one ket an operation is a step of the simulator**, where R meets a qubit that is off. -/
theorem exec_ket (h : Exec t s m op s' m') (hr : op = .r → operandOn t s.qubits 0 = false) :
    measured op t (nextBit m).1 (ket (wires s)) =
      (weight op (nextBit m).1 * sign (signStep op t (nextBit m).1 s.qubits)) • ket (wires s') := by
  have hon : ∀ {i a : ℕ}, q t i = some a → operandOn t s.qubits i = wires s a := by
    intro i a h
    exact operandOn_eq h s.qubits
  have hread : ∀ {i v}, s.readQubit i = some v → wires s i = v := State.readQubit_eq
  cases h with
  | x h0 hs => simp [measured, gateOn, h0, wires_xorQubit hs, weight, signStep]
  | cx h0 h1 hv hs =>
    simp [measured, gateOn, h0, h1, wires_xorQubit hs, weight, signStep, hread hv]
  | ccx h0 h1 h2 hv hs =>
    simp [measured, gateOn, h0, h1, h2, wires_xorQubit hs, weight, signStep, allOn_wires hv]
  | z h0 => simp [measured, gateOn, h0, weight, signStep, hon h0]; rfl
  | cz h0 h1 => simp [measured, gateOn, h0, h1, weight, signStep, hon h0, hon h1]; rfl
  | ccz h0 h1 h2 =>
    simp [measured, gateOn, h0, h1, h2, weight, signStep, hon h0, hon h1, hon h2]; rfl
  | neg => simp [measured, gateOn, weight, signStep]; rfl
  | swap h0 h1 ha hb hs hs' =>
    simp [measured, gateOn, h0, h1, weight, signStep, wires_writeQubit hs', wires_writeQubit hs,
      hread ha, hread hb]
  | rOff h0 hv hs =>
    have hw : wires s' = Function.update (wires s) _ false := (wires_writeQubit hs).trans rfl
    cases hb : (nextBit m).1 <;>
      simp [measured, h0, measureZ_ket, hread hv, weight, signStep, hon h0, hw]
  | rOn h0 hv hs =>
    have hoff := hr rfl
    rw [hon h0, hread hv] at hoff
    cases hoff
  | hmr h0 h1 hv hs hs' =>
    have hw : wires s' = Function.update (wires s) _ false :=
      (wires_writeQubit hs').trans (congrArg (Function.update · _ false) (wires_writeBit hs))
    simp [measured, h0, measureX_ket, weight, signStep, hon h0, hw]
  | bitInvert _ _ hs => simp [measured, gateOn, weight, signStep, wires_writeBit hs]
  | bitStore0 _ hs => simp [measured, gateOn, weight, signStep, wires_writeBit hs]
  | bitStore1 _ hs => simp [measured, gateOn, weight, signStep, wires_writeBit hs]
  | skip hop => rcases hop with rfl | rfl | rfl <;> simp [measured, gateOn, weight, signStep]

/-- **On one ket an instruction is a step of the simulator**, times a weight that does not depend on
    the ket. -/
theorem effect_ket {inst : Instruction} {b : Bool} (h : after inst b s = some s')
    (hr : s.control.acts inst = some .r → operandOn inst.targets s.qubits 0 = false) :
    s.control.operation inst b (ket (wires s)) =
      ((s.control.acts inst).elim 1 (weight · b) * sign (s.phase ^^ s'.phase)) •
        ket (wires s') := by
  have e := after_effect h
  rw [e.phase, ← Bool.xor_assoc, Bool.xor_self, Bool.false_xor, Control.operation]
  cases hop : s.control.acts inst with
  | none =>
    have hq := e.qubits
    rw [hop, Option.elim_none] at hq
    have hw : wires s' = wires s := by
      unfold wires State.on
      rw [hq]
    simp only [Option.elim_none, LinearMap.id_apply, sign_false, mul_one, one_smul, hw]
  | some op =>
    cases hg : isGate op with
    | true =>
      obtain ⟨_, he⟩ := after_exec h hop hg
      have hket := exec_ket he fun hr' => hr (hop.trans (congrArg some hr'))
      rw [nextBit_always] at hket
      exact hket
    | false =>
      have hq := e.qubits
      rw [hop, Option.elim_some] at hq
      have hw : wires s' = wires s := by
        unfold wires State.on
        rw [hq]
        cases op <;> first | exact absurd hg (by decide) | rfl
      rw [hw]
      cases op <;> first | exact absurd hg (by decide) | simp [measured, gateOn, weight, signStep]

end Instruction

/-! ## 3. A run on one ket -/

/-- The weights along a list of outcomes; none where the list does not fit. -/
def amplitude : List Instruction → List Bool → Control → ℂ
  | [], [], _ => 1
  | [], _ :: _, _ => 0
  | inst :: insts, [], c =>
      if c.measures inst then 0 else amplitude insts [] (c.step inst false)
  | inst :: insts, b :: path, c =>
      if c.measures inst then (c.acts inst).elim 1 (weight · b) * amplitude insts path (c.step inst b)
      else amplitude insts (b :: path) (c.step inst false)

section Run

variable {inst : Instruction} {insts : List Instruction} {s s' : State} {b : Bool} {c : Control}

theorem weight_of_not_measures (h : c.measures inst = false) :
    (c.acts inst).elim 1 (weight · b) = 1 := by
  unfold Control.measures at h
  cases hop : c.acts inst with
  | none => rfl
  | some op =>
    rw [hop, Option.any_some] at h
    cases op <;> first | rfl | cases h

/-- A run after a step is a run from before it, over some stream. -/
theorem exists_run_cons (h : after inst b s = some s') {bits : List Bool} {r : State × Tape}
    (hr : runInstructions insts s' (⟨bits⟩ : Tape) = some r) :
    ∃ bits, runInstructions (inst :: insts) s (⟨bits⟩ : Tape) = some r := by
  cases ha : asksNow inst s with
  | true =>
    refine ⟨b :: bits, ?_⟩
    rw [runInstructions_cons, step_eq_after, nextBit_tape, h, ha]
    exact hr
  | false =>
    refine ⟨bits, ?_⟩
    rw [runInstructions_cons, step_eq_after, after_idle ha _ b, h, ha]
    exact hr

/-- One instruction, and what the rest does to the ket it leaves. -/
theorem cons_ket (hsafe : Safe (inst :: insts) s) (h : after inst b s = some s') {path : List Bool}
    {x : Wires} (ih : kraus insts path s'.control (ket (wires s')) =
      (amplitude insts path s'.control * sign s'.phase) • ket x) :
    kraus insts path (s.control.step inst b) (s.control.operation inst b (ket (wires s))) =
      ((s.control.acts inst).elim 1 (weight · b) * amplitude insts path (s.control.step inst b) *
        sign s.phase) • ket x := by
  have hsign : sign (s.phase ^^ s'.phase) * sign s'.phase = sign s.phase := by
    rw [← sign_xor, Bool.xor_assoc, Bool.xor_self, Bool.xor_false]
  rw [effect_ket h hsafe.reset_off, map_smul, ← (after_effect h).control, ih, smul_smul, ← hsign]
  congr 1
  ring

/-- **On one ket a circuit is a run of the simulator**, times an amplitude that does not depend on the
    ket. -/
theorem kraus_ket : ∀ {insts : List Instruction} {s : State} (path : List Bool), Safe insts s →
    ∃ bits r, runInstructions insts s (⟨bits⟩ : Tape) = some r ∧
      kraus insts path s.control (ket (wires s)) =
        (amplitude insts path s.control * sign s.phase) • ket (wires r.1)
  | [], s, path, h => by
      obtain ⟨r, hr, hp⟩ := h []
      cases hr
      have hp' : s.phase = false := hp
      refine ⟨[], _, rfl, ?_⟩
      cases path <;> simp [kraus, amplitude, hp']
  | inst :: insts, s, path, h => by
      cases hm : s.control.measures inst with
      | false =>
        obtain ⟨s', hs', hsafe⟩ := h.after false
        obtain ⟨bits, r, hr, ih⟩ := kraus_ket path hsafe
        obtain ⟨bits', hr'⟩ := exists_run_cons hs' hr
        refine ⟨bits', r, hr', ?_⟩
        have e := cons_ket h hs' ih
        rw [weight_of_not_measures hm, one_mul] at e
        cases path <;>
          simpa only [kraus, amplitude, hm, if_neg Bool.false_ne_true, Module.End.mul_apply] using e
      | true =>
        cases path with
        | nil =>
          obtain ⟨r, hr, -⟩ := h []
          refine ⟨[], r, hr, ?_⟩
          simp [kraus, amplitude, hm]
        | cons b path =>
          obtain ⟨s', hs', hsafe⟩ := h.after b
          obtain ⟨bits, r, hr, ih⟩ := kraus_ket path hsafe
          obtain ⟨bits', hr'⟩ := exists_run_cons hs' hr
          refine ⟨bits', r, hr', ?_⟩
          have e := cons_ket h hs' ih
          simpa only [kraus, amplitude, hm, if_pos, Module.End.mul_apply] using e

/-- **The outcomes of a circuit share the whole mass.** -/
theorem sum_normSq_amplitude : ∀ (insts : List Instruction) (c : Control),
    ((paths insts c).map fun path => Complex.normSq (amplitude insts path c)).sum = 1
  | [], _ => by simp [paths, amplitude]
  | inst :: insts, c => by
      cases hm : c.measures inst with
      | false =>
        rw [paths, hm, if_neg Bool.false_ne_true, ← sum_normSq_amplitude insts (c.step inst false)]
        refine congrArg List.sum (List.map_congr_left fun path _ => ?_)
        cases path <;> simp [amplitude, hm]
      | true =>
        have hsum : ∀ b, (((paths insts (c.step inst b)).map (b :: ·)).map fun path =>
            Complex.normSq (amplitude (inst :: insts) path c)).sum =
              Complex.normSq ((c.acts inst).elim 1 (weight · b)) := by
          intro b
          rw [List.map_map, ← mul_one (Complex.normSq _), ← sum_normSq_amplitude insts (c.step inst b),
            ← List.sum_map_mul_left]
          refine congrArg List.sum (List.map_congr_left fun path _ => ?_)
          simp [amplitude, hm]
        rw [paths, hm, if_pos rfl, List.map_append, List.sum_append, hsum, hsum]
        unfold Control.measures at hm
        cases hop : c.acts inst with
        | none => rw [hop] at hm; cases hm
        | some op =>
          rw [hop, Option.any_some] at hm
          cases op
          case hmr => simp only [Option.elim_some, weight, normSq_halfRoot]; norm_num
          case r => simp [weight]
          all_goals cases hm

end Run

/-! ## 4. A circuit that passes -/

/-- The registers hold the values, and every other qubit is off. -/
structure Shows (c : Circuit) (values : List ℕ) (x : Wires) : Prop where
  registers : ∀ p ∈ c.registers.toList.zipIdx, ∀ j (h : j < p.1.2.length),
    x p.1.2[j] = (values.getD p.2 0).testBit j
  others : ∀ i, x i = true → ∃ p ∈ c.registers.toList, i ∈ p.2

theorem Shows.unique {c : Circuit} {values : List ℕ} {x y : Wires} (hx : Shows c values x)
    (hy : Shows c values y) : x = y := by
  funext i
  by_cases hi : ∃ p ∈ c.registers.toList, i ∈ p.2
  · obtain ⟨p, hp, hi⟩ := hi
    obtain ⟨k, hk, rfl⟩ := List.getElem_of_mem hp
    obtain ⟨j, hj, rfl⟩ := List.getElem_of_mem hi
    have hmem : (c.registers.toList[k], k) ∈ c.registers.toList.zipIdx :=
      List.mem_zipIdx_iff_getElem?.mpr (List.getElem?_eq_getElem hk)
    rw [hx.registers _ hmem j hj, hy.registers _ hmem j hj]
  · rw [Bool.eq_false_of_not_eq_true fun hn => hi (hx.others i hn),
      Bool.eq_false_of_not_eq_true fun hn => hi (hy.others i hn)]

/-- The ket that `check_case` loads. -/
def loaded (c : Circuit) (inputs : List ℕ) : Wires :=
  ((initial c inputs).map wires).getD fun _ => false

/-- The control state that a run starts from. -/
def Control.new (numBits : ℕ) : Control := ⟨List.replicate numBits false, []⟩

section Passing

variable {c : Circuit} {s s' : State} {inputs outputs : List ℕ}

theorem shows_of_outputs (hlen : s.qubits.length = c.numQubits)
    (hfit : ∀ p ∈ c.registers.toList, Fits c.numQubits p.2)
    (h : checkOutputs c ⟨inputs, outputs⟩ s c.registers.keys.zipIdx = some none)
    (ha : unclearedAncilla c s = none) : Shows c outputs (wires s) := by
  rw [← Std.ExtTreeMap.map_fst_toList_eq_keys,
    checkOutputs_none (declared_toList c) (by rwa [hlen])] at h
  refine ⟨fun p hp j hj => ?_, (unclearedAncilla_none hlen).mp ha⟩
  rw [wires, ← testBit_regValue s hj, h p hp, Nat.testBit_mod_two_pow, decide_eq_true hj,
    Bool.true_and]

theorem initial_control (h : initial c inputs = some s) :
    s.control = Control.new c.numBits ∧ s.phase = false := by
  have f := (initial_loaded h).1.frame
  rw [State.control, f.bits, f.condStack, f.phase]
  exact ⟨rfl, rfl⟩

/-- **On the ket of an input every branch leaves the ket of its output.** -/
theorem kraus_loaded (hpass : PassesAlways c ⟨inputs, outputs⟩) {y : Wires}
    (hy : Shows c outputs y) (path : List Bool) :
    kraus c.instructions path (Control.new c.numBits) (ket (loaded c inputs)) =
      amplitude c.instructions path (Control.new c.numBits) • ket y := by
  obtain ⟨s, -, -, hs, -⟩ := checkCase_initial (hpass [])
  obtain ⟨hc, hp⟩ := initial_control hs
  obtain ⟨bits, r, hr, hket⟩ := kraus_ket path (safe_of_passes hpass hs)
  obtain ⟨s1, s', m', hs1, hrun, hout, hanc, -⟩ := checkCase_initial (hpass bits)
  obtain rfl := Option.some.inj (hs.symm.trans hs1)
  rw [run_tape hrun] at hr
  cases hr
  have hy' := shows_of_outputs (run_initial_length hs hrun) (initial_loaded hs).2 hout hanc
  rw [hc, hp, sign_false, mul_one] at hket
  rw [loaded, hs, Option.map_some, Option.getD_some, hket, hy.unique hy']

/-- **A circuit that passes on every trajectory computes its function on superpositions**: whatever
    the measurements give, a superposition of inputs becomes the superposition of their outputs, with
    the same amplitudes, and the probability of the outcomes is the same for all of them. -/
theorem passing_coherent (c : Circuit) (I : Set (List ℕ)) (f : List ℕ → List ℕ)
    (hpass : ∀ v ∈ I, PassesAlways c ⟨v, f v⟩) :
    ∃ (k : List Bool → ℂ) (y : List ℕ → Wires), (∀ v ∈ I, Shows c (f v) (y v)) ∧
      (∀ (path : List Bool) (S : Finset (List ℕ)), (∀ v ∈ S, v ∈ I) → ∀ α : List ℕ → ℂ,
        kraus c.instructions path (Control.new c.numBits) (∑ v ∈ S, α v • ket (loaded c v)) =
          k path • ∑ v ∈ S, α v • ket (y v)) ∧
      ((paths c.instructions (Control.new c.numBits)).map fun p => Complex.normSq (k p)).sum = 1 := by
  have hshows : ∀ v, ∃ x, v ∈ I → Shows c (f v) x := by
    intro v
    by_cases hv : v ∈ I
    · obtain ⟨s, s', m', hs, hrun, hout, hanc, -⟩ := checkCase_initial (hpass v hv [])
      exact ⟨wires s', fun _ => shows_of_outputs (run_initial_length hs hrun) (initial_loaded hs).2
        hout hanc⟩
    · exact ⟨fun _ => false, fun h => absurd h hv⟩
  choose y hy using hshows
  refine ⟨fun path => amplitude c.instructions path (Control.new c.numBits), y, hy, ?_,
    sum_normSq_amplitude _ _⟩
  intro path S hS α
  rw [map_sum, Finset.smul_sum]
  refine Finset.sum_congr rfl fun v hv => ?_
  rw [map_smul, kraus_loaded (hpass v (hS v hv)) (hy v (hS v hv)), smul_comm]

theorem passing_coherent_copied : ∃ (k : List Bool → ℂ) (y : List ℕ → Wires),
    Shows copiedCircuit [0] (y [0]) ∧ Shows copiedCircuit [1] (y [1]) ∧
      kraus copiedCircuit.instructions [true] (Control.new 1)
        (∑ v ∈ {[0], [1]}, (fun _ => 1 : List ℕ → ℂ) v • ket (loaded copiedCircuit v)) =
          k [true] • ∑ v ∈ {[0], [1]}, (fun _ => 1 : List ℕ → ℂ) v • ket (y v) := by
  obtain ⟨k, y, hy, hk, -⟩ := passing_coherent copiedCircuit {[0], [1]} id passesAlways_copied
  refine ⟨k, y, hy _ (Or.inl rfl), hy _ (Or.inr rfl), hk [true] {[0], [1]} (fun v hv => ?_) _⟩
  simpa using hv

end Passing

end

end GroverTax.Kickmix
