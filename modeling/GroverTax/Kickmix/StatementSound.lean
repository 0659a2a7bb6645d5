/-
  File:      GroverTax/Kickmix/StatementSound.lean
  Subject:   What a successful `run_statement` proves.

  The verdict looks at the registers a circuit declares, in ascending order of their ids, and at
  nothing about their number, ids or members. So it proves the adder statement exactly for the
  circuits that do have the two registers the statement is about:

  * `AdderState` -- `r0 = a`, `r1 = b`, every other qubit `0`, phase `+1`;
  * `TwoRegisters` -- registers `0` and `1`, of `width` distinct qubits each;
  * `checkCase_sound` -- one case; `runStatement_sound_iff` -- the statement.
-/
import GroverTax.Kickmix.Registers
import GroverTax.Kickmix.Statement
import GroverTax.Kickmix.Parse

namespace GroverTax.Kickmix

open GroverTax.Lib

/-! ## 1. The statement -/

/-- **`r0 = a`, `r1 = b`, every other qubit `0`, phase `+1`.** -/
structure AdderState (m0 m1 : List ℕ) (numQubits a b : ℕ) (s : State) : Prop where
  length : s.qubits.length = numQubits
  r0 : regValue s m0 = a
  r1 : regValue s m1 = b
  others : ∀ q, s.on q = true → q ∈ m0 ∨ q ∈ m1
  phase : s.phase = false

/-- A state a run may start from: no classical bit set, no condition pushed. -/
structure InitialState (c : Circuit) (m0 m1 : List ℕ) (a b : ℕ) (s : State) : Prop where
  adder : AdderState m0 m1 c.numQubits a b s
  bits : s.bits = List.replicate c.numBits false
  condStack : s.condStack = []

/-- The circuit declares exactly the registers `r0` and `r1`, with the qubits `m0` and `m1`: `width`
    of them each, all distinct. -/
structure TwoRegisters (c : Circuit) (width : ℕ) (m0 m1 : List ℕ) : Prop where
  declared : c.registers.toList = [(0, m0), (1, m1)]
  width0 : m0.length = width
  width1 : m1.length = width
  distinct : (m0 ++ m1).Nodup

/-- The circuit adds on case `i`: one run, from `r0 = x`, `r1 = y`. -/
def AddsOnCase (c : Circuit) (circuitHash : List UInt8) (params : StatementParams)
    (m0 m1 : List ℕ) (i x y : ℕ) : Prop :=
  (∃ s, InitialState c m0 m1 x y s) ∧ ∀ s, InitialState c m0 m1 x y s →
    ∃ s' m', run c s (caseMeasure circuitHash i) = some (s', m') ∧
      AdderState m0 m1 c.numQubits ((x + params.repetitions * y) % 2 ^ params.width) y s'

/-- **What the certified statement says.** -/
def StatementHolds (c : Circuit) (circuitHash : List UInt8) (params : StatementParams) : Prop :=
  ∃ m0 m1, TwoRegisters c params.width m0 m1 ∧
    (∃ cases, deriveCases circuitHash params.width params.numSamples = some cases ∧
      ∀ i x y, cases[i]? = some (x, y) → AddsOnCase c circuitHash params m0 m1 i x y) ∧
    Meets (countResources c params.numSamples) params.demanded

/-! ## 2. Initial states -/

section Initial

variable {c : Circuit} {m0 m1 : List ℕ} {x y : ℕ}

/-- An initial state is determined by the two values. -/
theorem InitialState.unique {s s' : State} (h : InitialState c m0 m1 x y s)
    (h' : InitialState c m0 m1 x y s') : s = s' := by
  have hreg : ∀ {m : List ℕ} {v : ℕ}, regValue s m = v → regValue s' m = v →
      ∀ q ∈ m, s.on q = s'.on q := by
    intro m v e e' q hq
    obtain ⟨j, hj, rfl⟩ := List.getElem_of_mem hq
    rw [← testBit_regValue s hj, ← testBit_regValue s' hj, e, e']
  have hon : ∀ q, s.on q = s'.on q := by
    intro q
    by_cases h0 : q ∈ m0
    · exact hreg h.adder.r0 h'.adder.r0 q h0
    · by_cases h1 : q ∈ m1
      · exact hreg h.adder.r1 h'.adder.r1 q h1
      · have hoff : ∀ {t : State}, InitialState c m0 m1 x y t → t.on q = false := by
          intro t ht
          by_contra hn
          rcases ht.adder.others q (by simpa using hn) with hq | hq
          · exact h0 hq
          · exact h1 hq
        rw [hoff h, hoff h']
  have hlen : s.qubits.length = s'.qubits.length := h.adder.length.trans h'.adder.length.symm
  have hq : s.qubits = s'.qubits := by
    refine List.ext_getElem hlen fun i h1 h2 => ?_
    have e := hon i
    rwa [State.on, State.on, List.getD_eq_getElem _ _ h1, List.getD_eq_getElem _ _ h2] at e
  obtain ⟨qs, bs, ph, cs⟩ := s
  obtain ⟨qs', bs', ph', cs'⟩ := s'
  have e1 := h.bits.trans h'.bits.symm
  have e2 := h.adder.phase.trans h'.adder.phase.symm
  have e3 := h.condStack.trans h'.condStack.symm
  dsimp only at hq e1 e2 e3
  rw [hq, e1, e2, e3]

theorem on_new (numQubits numBits q : ℕ) : (State.new numQubits numBits).on q = false := by
  unfold State.on State.new
  rw [List.getD_eq_getElem?_getD]
  exact List.getElem?_getD_replicate_default_eq false _ _

/-- **Loading both registers of a fresh state gives the initial state.** -/
theorem initialState_of_load {s0 s1 : State} (hnd : (m0 ++ m1).Nodup)
    (hx : x < 2 ^ m0.length) (hy : y < 2 ^ m1.length)
    (h0 : loadMembers x 0 m0 (State.new c.numQubits c.numBits) = some s0)
    (h1 : loadMembers y 0 m1 s0 = some s1) : InitialState c m0 m1 x y s1 := by
  obtain ⟨hnd0, hnd1, hdis⟩ := List.nodup_append.mp hnd
  have f0 := loadMembers_frame h0
  have f1 := loadMembers_frame h1
  refine ⟨⟨?_, ?_, regValue_loadMembers h1 hnd1 hy, fun q hq => ?_, ?_⟩, ?_, ?_⟩
  · rw [f1.qubits, f0.qubits]
    exact List.length_replicate
  · rw [regValue_eq_iff hx]
    intro j hj
    have hnot : m0[j] ∉ m1 := fun hm => hdis _ (List.getElem_mem hj) _ hm rfl
    rw [loadMembers_other h1 hnot, loadMembers_spec h0 hnd0 j hj, Nat.zero_add]
  · by_contra hn
    rw [not_or] at hn
    rw [loadMembers_other h1 hn.2, loadMembers_other h0 hn.1, on_new] at hq
    cases hq
  · rw [f1.phase, f0.phase]
    rfl
  · rw [f1.bits, f0.bits]
    rfl
  · rw [f1.condStack, f0.condStack]
    rfl

end Initial

/-! ## 3. One case -/

section Case

variable {c : Circuit} {m0 m1 : List ℕ}

theorem getD_foldl_set {q : ℕ} : ∀ (qs : List ℕ) (l : List Bool),
    (qs.foldl (fun l q => l.set q true) l).getD q false = true → q ∈ qs ∨ l.getD q false = true
  | [], _, h => Or.inr h
  | p :: qs, l, h => by
      rcases getD_foldl_set qs _ h with h | h
      · exact Or.inl (List.mem_cons_of_mem _ h)
      · by_cases hp : p = q
        · exact Or.inl (hp ▸ List.mem_cons_self)
        · rw [List.getD_eq_getElem?_getD, List.getElem?_set, if_neg hp] at h
          exact Or.inr (by rwa [List.getD_eq_getElem?_getD])

/-- No uncleared ancilla: every qubit that is on is in a register. -/
theorem mem_register_of_cleared {s : State} (h : unclearedAncilla c s = none) {q : ℕ}
    (hq : s.on q = true) : ∃ p ∈ c.registers.toList, q ∈ p.2 := by
  have hlt : q < s.qubits.length := by
    by_contra hn
    rw [State.on, List.getD_eq_default _ _ (by omega)] at hq
    cases hq
  have hmem : (true, q) ∈ s.qubits.zipIdx := by
    rw [List.mem_zipIdx_iff_getElem?, List.getElem?_eq_getElem hlt]
    rw [State.on, List.getD_eq_getElem _ _ hlt] at hq
    exact congrArg some hq
  have hnone := List.find?_eq_none.mp (Option.map_eq_none_iff.mp h) _ hmem
  have hmember : (registerQubits c).getD q false = true := by simpa using hnone
  rcases getD_foldl_set _ _ hmember with hin | hnew
  · exact List.mem_flatMap.mp hin
  · rw [List.getD_eq_getElem?_getD, List.getElem?_getD_replicate_default_eq] at hnew
    cases hnew

theorem outputMask_and (v : ℕ) {width : ℕ} (h : width ≤ 128) :
    v &&& outputMask width = v % 2 ^ width := by
  have e : outputMask width = 2 ^ width - 1 := by
    unfold outputMask
    split_ifs with h1
    · rw [le_antisymm h h1]
    · rw [Nat.one_shiftLeft]
  rw [e, Nat.and_two_pow_sub_one_eq_mod]

/-- **A passed case**, for a circuit that declares `r0` and `r1`: both loads, the run, both reads
    and the two last tests. -/
theorem checkCase_two {M : Type} [MeasureSource M] {m : M} {x y a b : ℕ}
    (hreg : c.registers.toList = [(0, m0), (1, m1)])
    (h : checkCase c ⟨[x, y], [a, b]⟩ m = some none) :
    ∃ s0 s1 s' m', loadMembers x 0 m0 (State.new c.numQubits c.numBits) = some s0 ∧
      loadMembers y 0 m1 s0 = some s1 ∧ run c s1 m = some (s', m') ∧
      readMembers s' 0 m0 0 = some (a &&& outputMask m0.length) ∧
      readMembers s' 0 m1 0 = some (b &&& outputMask m1.length) ∧
      unclearedAncilla c s' = none ∧ s'.phase = false := by
  have hkeys : c.registers.keys.zipIdx = [(0, 0), (1, 1)] := by
    rw [← Std.ExtTreeMap.map_fst_toList_eq_keys, hreg]
    rfl
  have hr0 : c.registers[0]? = some m0 :=
    Std.ExtTreeMap.mem_toList_iff_getElem?_eq_some.mp (hreg ▸ List.mem_cons_self)
  have hr1 : c.registers[1]? = some m1 := Std.ExtTreeMap.mem_toList_iff_getElem?_eq_some.mp
    (hreg ▸ List.mem_cons_of_mem _ List.mem_cons_self)
  unfold checkCase at h
  simp only [hkeys, loadInputs, loadRegister, hr0, hr1, checkOutputs, readRegister,
    Option.bind_eq_bind, Option.bind_eq_some_iff, Option.some.injEq, exists_eq_left',
    List.getD_cons_zero, List.getD_cons_succ, Option.pure_def] at h
  obtain ⟨_, ⟨s0, h0, s2, h1, rfl⟩, ⟨s', m'⟩, hrun, o, ⟨g0, hg0, ho⟩, h⟩ := h
  split_ifs at ho with hne0
  · cases ho
    cases h
  · rw [Option.bind_some] at ho
    obtain ⟨g1, hg1, ho⟩ := Option.bind_eq_some_iff.mp ho
    split_ifs at ho with hne1
    · cases ho
      cases h
    · cases ho
      dsimp only at h
      split at h
      · cases h
      · rename_i hcl
        refine ⟨s0, s2, s', m', h0, h1, hrun, ?_, ?_, hcl, ?_⟩
        · rw [hg0, not_not.mp hne0]
        · rw [hg1, not_not.mp hne1]
        · by_contra hp
          rw [if_pos (by simpa using hp)] at h
          cases h

/-- **A passed case is an addition.** -/
theorem checkCase_sound {M : Type} [MeasureSource M] {m : M} {width x y a : ℕ}
    (hshape : TwoRegisters c width m0 m1) (hw : width ≤ 128) (hx : x < 2 ^ width)
    (hy : y < 2 ^ width) (h : checkCase c ⟨[x, y], [a, y]⟩ m = some none) :
    (∃ s, InitialState c m0 m1 x y s) ∧ ∀ s, InitialState c m0 m1 x y s →
      ∃ s' m', run c s m = some (s', m') ∧
        AdderState m0 m1 c.numQubits (a % 2 ^ width) y s' := by
  obtain ⟨s0, s1, s', m', h0, h1, hrun, hg0, hg1, hcl, hphase⟩ := checkCase_two hshape.declared h
  have hinit : InitialState c m0 m1 x y s1 :=
    initialState_of_load hshape.distinct (by rwa [hshape.width0]) (by rwa [hshape.width1]) h0 h1
  refine ⟨⟨s1, hinit⟩, fun s hs => ?_⟩
  rw [hs.unique hinit]
  have hlen : s'.qubits.length = c.numQubits := (run_shape hrun).qubits.trans hinit.adder.length
  refine ⟨s', m', hrun, hlen, ?_, ?_, fun q hq => ?_, hphase⟩
  · rw [← readMembers_zero hg0, hshape.width0, outputMask_and _ hw]
  · rw [← readMembers_zero hg1, hshape.width1, outputMask_and _ hw, Nat.mod_eq_of_lt hy]
  · obtain ⟨p, hp, hqp⟩ := mem_register_of_cleared hcl hq
    rw [hshape.declared, List.mem_cons, List.mem_singleton] at hp
    rcases hp with rfl | rfl
    · exact Or.inl hqp
    · exact Or.inr hqp

end Case

/-! ## 4. The whole statement -/

section Statement

variable {c : Circuit} {circuitHash : List UInt8}

/-- A loop passes exactly when every case does. -/
theorem checkCases_none {repetitions mask : ℕ} : ∀ {i : ℕ} {cases : List (ℕ × ℕ)},
    checkCases c circuitHash repetitions mask i cases = some none ↔
      ∀ j x y, cases[j]? = some (x, y) →
        checkCase c (statementCase repetitions mask x y) (caseMeasure circuitHash (i + j)) =
          some none
  | i, [] => ⟨fun _ _ _ _ hj => (by cases hj), fun _ => rfl⟩
  | i, (x, y) :: cases => by
      unfold checkCases
      rw [Option.bind_eq_bind, Option.bind_eq_some_iff]
      constructor
      · rintro ⟨o, ho, h⟩ j x' y' hj
        cases o with
        | some failure => cases h
        | none =>
          cases j with
          | zero =>
            cases hj
            exact ho
          | succ j =>
            rw [Nat.add_comm j 1, ← Nat.add_assoc]
            exact checkCases_none.mp h j x' y' hj
      · intro h
        refine ⟨none, h 0 x y rfl, checkCases_none.mpr fun j x' y' hj => ?_⟩
        rw [Nat.add_assoc, Nat.add_comm 1 j]
        exact h (j + 1) x' y' hj

/-- **What a returned output vector records.** -/
theorem runStatement_eq_ok {params : StatementParams} {out : List ℕ} :
    runStatement c circuitHash params = some (.ok out) ↔
      out = publicOutputs (countResources c params.numSamples) ∧
      Meets (countResources c params.numSamples) params.demanded ∧
      ∃ cases, deriveCases circuitHash params.width params.numSamples = some cases ∧
        checkCases c circuitHash params.repetitions
          (((if params.width ≥ 128 then 0 else 1 <<< params.width) + 2 ^ 128 - 1) % 2 ^ 128) 0
          cases = some none := by
  unfold runStatement
  simp only [Option.bind_eq_bind, Option.bind_eq_some_iff]
  constructor
  · intro h'
    obtain ⟨cases, hcases, o, ho, h⟩ := h'
    cases o with
    | some e => cases h
    | none =>
      dsimp only at h
      split_ifs at h with hv
      · cases h
      · cases h
        exact ⟨rfl, (certify_eq_nil.mp (not_not.mp hv)).1, cases, hcases, ho⟩
  · intro h'
    obtain ⟨rfl, hmeets, cases, hcases, hchecks⟩ := h'
    refine ⟨cases, hcases, none, hchecks, ?_⟩
    dsimp only
    have hnil : certify (countResources c params.numSamples)
        ((publicOutputs (countResources c params.numSamples)).getD 4 0) params.demanded = [] :=
      certify_eq_nil.mpr ⟨hmeets, rfl⟩
    rw [if_neg (not_not.mpr hnil)]
    rfl

theorem statementMask {width : ℕ} (h : width ≤ 128) :
    ((if width ≥ 128 then 0 else 1 <<< width) + 2 ^ 128 - 1) % 2 ^ 128 = 2 ^ width - 1 := by
  split_ifs with h1
  · rw [le_antisymm h h1]
    norm_num
  · have hlt : 2 ^ width < 2 ^ 128 := Nat.pow_lt_pow_right (by decide) (by omega)
    have hpos := Nat.two_pow_pos width
    rw [Nat.one_shiftLeft, show 2 ^ width + 2 ^ 128 - 1 = 2 ^ width - 1 + 2 ^ 128 by omega,
      Nat.add_mod_right, Nat.mod_eq_of_lt (by omega)]

/-- The wrapping sum, reduced to the register's width. -/
theorem wrapping_sum_mod {width : ℕ} (h : width ≤ 128) (x k y : ℕ) :
    (x + k * y % 2 ^ 128) % 2 ^ 128 % 2 ^ width = (x + k * y) % 2 ^ width := by
  have hd : (2 : ℕ) ^ width ∣ 2 ^ 128 := Nat.pow_dvd_pow 2 h
  rw [Nat.mod_mod_of_dvd _ hd, Nat.add_mod, Nat.mod_mod_of_dvd _ hd, ← Nat.add_mod]

/-- **A successful `run_statement` proves the adder statement exactly when the circuit declares the
    two registers the statement is about.** -/
theorem runStatement_sound_iff (c : Circuit) (circuitHash : List UInt8) (params : StatementParams)
    (out : List ℕ) (hw : params.width ≤ 128)
    (h : runStatement c circuitHash params = some (.ok out)) :
    StatementHolds c circuitHash params ↔ ∃ m0 m1, TwoRegisters c params.width m0 m1 := by
  constructor
  · intro h'
    obtain ⟨m0, m1, hshape, _⟩ := h'
    exact ⟨m0, m1, hshape⟩
  · intro h'
    obtain ⟨m0, m1, hshape⟩ := h'
    obtain ⟨-, hmeets, cases, hcases, hchecks⟩ := runStatement_eq_ok.mp h
    refine ⟨m0, m1, hshape, ⟨cases, hcases, fun i x y hi => ?_⟩, hmeets⟩
    obtain ⟨hx, hy⟩ := deriveCases_lt hcases (x, y) (List.mem_of_getElem? hi)
    have hcase := checkCases_none.mp hchecks i x y hi
    rw [Nat.zero_add, statementMask hw, statementCase, Nat.and_two_pow_sub_one_eq_mod] at hcase
    have := checkCase_sound hshape hw hx hy hcase
    rwa [Nat.mod_mod, wrapping_sum_mod hw] at this

end Statement

/-! ## 5. Two circuits -/

/-- A one-bit adder. -/
def addOne : Circuit where
  instructions := [⟨"REGISTER", [.register 0], none⟩,
    ⟨"APPEND_TO_REGISTER", [.qubit 0, .register 0], none⟩,
    ⟨"REGISTER", [.register 1], none⟩,
    ⟨"APPEND_TO_REGISTER", [.qubit 1, .register 1], none⟩,
    ⟨"CX", [.qubit 1, .qubit 0], none⟩]
  registers := ((∅ : Std.ExtTreeMap ℕ (List ℕ)).insert 0 [0]).insert 1 [1]
  numQubits := 2

theorem checkCase_addOne {M : Type} [MeasureSource M] (m : M) {x y : ℕ} (hx : x < 2)
    (hy : y < 2) : checkCase addOne (statementCase 1 1 x y) m = some none := by
  obtain rfl | rfl : x = 0 ∨ x = 1 := by omega
  all_goals obtain rfl | rfl : y = 0 ∨ y = 1 := by omega
  all_goals rfl

theorem twoRegisters_addOne : TwoRegisters addOne 1 [0] [1] where
  declared := by decide
  width0 := rfl
  width1 := rfl
  distinct := by decide

theorem exists_runStatement_addOne :
    runStatement addOne [] ⟨1, 1, 1, ⟨1, 2, 0, 5⟩⟩ = some (.ok [1, 2, 0, 5, 42]) := by
  obtain ⟨cases, hcases⟩ :=
    (exists_deriveCases_iff [] (le_refl 1) (by decide) Nat.one_pos).mpr (by decide)
  refine runStatement_eq_ok.mpr ⟨rfl, ⟨by decide, by decide, by decide, by decide⟩, cases, hcases,
    checkCases_none.mpr fun j x y hj => ?_⟩
  obtain ⟨hx, hy⟩ := deriveCases_lt hcases (x, y) (List.mem_of_getElem? hj)
  exact checkCase_addOne _ hx hy

theorem runStatement_sound_addOne :
    StatementHolds addOne [] ⟨1, 1, 1, ⟨1, 2, 0, 5⟩⟩ :=
  (runStatement_sound_iff addOne [] ⟨1, 1, 1, ⟨1, 2, 0, 5⟩⟩ [1, 2, 0, 5, 42] (by decide)
    exists_runStatement_addOne).mpr ⟨[0], [1], twoRegisters_addOne⟩

/-- **The statement of the empty text is certified at every width**, with no register in it. -/
theorem empty_text_certified :
    parse [] = pure {} ∧ runStatement {} [] ⟨1, 8, 1, ⟨1, 0, 0, 0⟩⟩ = some (.ok [1, 0, 0, 0, 42]) ∧
      ¬ StatementHolds {} [] ⟨1, 8, 1, ⟨1, 0, 0, 0⟩⟩ := by
  refine ⟨rfl, ?_, ?_⟩
  · obtain ⟨cases, hcases⟩ :=
      (exists_deriveCases_iff [] (by decide : 1 ≤ 8) (by decide) Nat.one_pos).mpr (by decide)
    exact runStatement_eq_ok.mpr ⟨rfl, ⟨by decide, by decide, by decide, by decide⟩, cases, hcases,
      checkCases_none.mpr fun j x y _ => rfl⟩
  · intro h'
    obtain ⟨m0, m1, hshape, -⟩ := h'
    have h := hshape.declared
    cases h

end GroverTax.Kickmix
