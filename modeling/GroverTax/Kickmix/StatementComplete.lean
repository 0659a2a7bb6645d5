/-
  File:      GroverTax/Kickmix/StatementComplete.lean
  Subject:   A circuit that adds passes `run_statement`.

  * `AddsAlways` -- the circuit adds on every pair of operands, whatever is measured;
  * `runStatement_complete` -- then the verdict is that of the resource bounds alone;
  * `oversized_request_panics` -- beyond the samples whose operands `usize` can count.
-/
import GroverTax.Kickmix.Verdict

namespace GroverTax.Kickmix

open GroverTax.Lib

/-- The circuit declares two registers, `m0` under the lower id: `width` qubits each, all
    distinct. -/
structure AdderRegisters (c : Circuit) (width : ℕ) (m0 m1 : List ℕ) : Prop where
  declared : ∃ i j, c.registers.toList = [(i, m0), (j, m1)]
  width0 : m0.length = width
  width1 : m1.length = width
  distinct : (m0 ++ m1).Nodup

/-- **The circuit adds**, from every pair of operands and for every seed of the measurements. -/
def AddsAlways (c : Circuit) (repetitions width : ℕ) (m0 m1 : List ℕ) : Prop :=
  ∀ x y, x < 2 ^ width → y < 2 ^ width → (∃ s, InitialState c m0 m1 x y s) ∧
    ∀ s, InitialState c m0 m1 x y s → ∀ m : SplitMix64, ∃ s' m', run c s m = some (s', m') ∧
      AdderState m0 m1 c.numQubits ((x + repetitions * y) % 2 ^ width) y s'

section Complete

variable {c : Circuit} {repetitions width x y a b i j : ℕ} {m0 m1 : List ℕ} {s : State}

theorem qubitRegs_two (h : c.registers.toList = [(i, m0), (j, m1)]) :
    qubitRegs c = [(i, m0.map .qubit), (j, m1.map .qubit)] := by
  rw [qubitRegs, h]
  rfl

/-- An initial state of the adder starts the case. -/
theorem InitialState.starts (hreg : c.registers.toList = [(i, m0), (j, m1)])
    (h : InitialState c m0 m1 x y s) : Starts (qubitRegs c) c [x, y] s where
  qubits := h.adder.length
  bits := h.bits ▸ List.length_replicate
  members := by
    have hbit : ∀ {ms : List ℕ} {v : ℕ}, regValue s ms = v →
        ∀ k (hk : k < (ms.map Target.qubit).length),
          s.holds (ms.map Target.qubit)[k] = v.testBit k := by
      rintro ms _ rfl k hk
      rw [List.length_map] at hk
      rw [List.getElem_map, testBit_regValue s hk]
      rfl
    rw [qubitRegs_two hreg, List.zipIdx_cons, List.zipIdx_cons, List.zipIdx_nil,
      List.forall_mem_cons, List.forall_mem_singleton]
    exact ⟨hbit h.adder.r0, hbit h.adder.r1⟩
  others := by
    rintro (q | k | r) ht
    · rw [mem_qubitRegs, hreg]
      rcases h.adder.others q ht with hq | hq
      · exact ⟨_, List.mem_cons_self, hq⟩
      · exact ⟨_, List.mem_cons_of_mem _ List.mem_cons_self, hq⟩
    · have hb : s.bits.getD k false = true := ht
      rw [h.bits, List.getD_eq_getElem?_getD, List.getElem?_getD_replicate_default_eq] at hb
      cases hb
    · cases ht
  phase := h.adder.phase
  condStack := h.condStack

theorem AdderState.passes (hreg : c.registers.toList = [(i, m0), (j, m1)])
    (ha : regValue s m0 = a % 2 ^ m0.length) (hb : regValue s m1 = b % 2 ^ m1.length)
    (h : AdderState m0 m1 c.numQubits x y s) : Passes (qubitRegs c) [a, b] s where
  members := by
    rw [qubitRegs_two hreg, List.zipIdx_cons, List.zipIdx_cons, List.zipIdx_nil,
      List.forall_mem_cons, List.forall_mem_singleton]
    dsimp only
    rw [memberValue_map, memberValue_map, List.length_map, List.length_map]
    exact ⟨ha, hb⟩
  others := by
    intro q hq
    rw [mem_qubitRegs, hreg]
    rcases h.others q hq with hq | hq
    · exact ⟨_, List.mem_cons_self, hq⟩
    · exact ⟨_, List.mem_cons_of_mem _ List.mem_cons_self, hq⟩
  phase := h.phase

/-- The operands of all ones show that every member is a qubit of the circuit. -/
theorem AddsAlways.lt (hshape : AdderRegisters c width m0 m1)
    (h : AddsAlways c repetitions width m0 m1) : ∀ q ∈ m0 ++ m1, q < c.numQubits := by
  have hpos := Nat.two_pow_pos width
  obtain ⟨s, hs⟩ := (h (2 ^ width - 1) (2 ^ width - 1) (by omega) (by omega)).1
  have hon : ∀ {ms : List ℕ}, ms.length = width → regValue s ms = 2 ^ width - 1 →
      ∀ q ∈ ms, q < c.numQubits := by
    intro ms hlen hv q hq
    obtain ⟨k, hk, rfl⟩ := List.getElem_of_mem hq
    have hbit := testBit_regValue s hk
    rw [hv, Nat.testBit_two_pow_sub_one, decide_eq_true (hlen ▸ hk)] at hbit
    by_contra hn
    rw [State.on, List.getD_eq_default _ _ (by rw [hs.adder.length]; omega)] at hbit
    cases hbit
  intro q hq
  rcases List.mem_append.mp hq with hq | hq
  · exact hon hshape.width0 hs.adder.r0 q hq
  · exact hon hshape.width1 hs.adder.r1 q hq

/-- **A circuit that adds passes every case.** -/
theorem checkCase_complete (hshape : AdderRegisters c width m0 m1) (hw : width ≤ 128)
    (hadds : AddsAlways c repetitions width m0 m1) (hx : x < 2 ^ width) (hy : y < 2 ^ width)
    (ha : a % 2 ^ width = (x + repetitions * y) % 2 ^ width) (m : SplitMix64) :
    checkCase c ⟨[x, y], [a, y]⟩ m = some none := by
  obtain ⟨i, j, hreg⟩ := hshape.declared
  have hlt := hadds.lt hshape
  have hfit : ∀ p ∈ c.registers.toList, Fits c.numQubits p.2 := by
    rw [hreg, List.forall_mem_cons, List.forall_mem_singleton]
    exact ⟨⟨hshape.width0 ▸ hw, fun q hq => hlt q (List.mem_append_left _ hq)⟩,
      hshape.width1 ▸ hw, fun q hq => hlt q (List.mem_append_right _ hq)⟩
  have hnd : (c.registers.toList.flatMap Prod.snd).Nodup := by
    rw [hreg]
    simpa using hshape.distinct
  obtain ⟨⟨s, hs⟩, hall⟩ := hadds x y hx hy
  obtain ⟨s', m', hrun, hend⟩ := hall s hs m
  refine (checkCase_eq_none hfit hnd).mpr ⟨s, s', m', hs.starts hreg, hrun, hend.passes hreg ?_ ?_⟩
  · rw [hshape.width0, ha]
    exact hend.r0
  · rw [hshape.width1, Nat.mod_eq_of_lt hy]
    exact hend.r1

/-- **Completeness of the statement.** A circuit that adds is accepted exactly when its counts meet
    the demanded bounds, and refused with the list of those it does not meet. -/
theorem runStatement_complete (c : Circuit) (circuitHash : List UInt8) (params : StatementParams)
    (m0 m1 : List ℕ) (hwidth : 1 ≤ params.width ∧ params.width ≤ 128)
    (hsamples : 1 ≤ params.numSamples)
    (hcap : params.numSamples * caseBytes ≤ isizeMax)
    (hshape : AdderRegisters c params.width m0 m1)
    (hadds : AddsAlways c params.repetitions params.width m0 m1) :
    (Meets (countResources c params.numSamples) params.demanded →
      runStatement c circuitHash params = some (.ok [params.numSamples, c.numQubits,
        (c.instructions.filter isNonClifford).length, c.instructions.length, 42])) ∧
    (¬ Meets (countResources c params.numSamples) params.demanded →
      ∃ violations, runStatement c circuitHash params = some (.error (.resourceViolations violations)) ∧
        violations.Nodup ∧ ∀ v, v ∈ violations ↔
          Violated (countResources c params.numSamples) params.demanded v) := by
  obtain ⟨cases, hcases⟩ :=
    (exists_deriveCases_iff circuitHash hwidth.1 hwidth.2 hsamples).mpr hcap
  have hmask := statementMask hwidth.2
  have hchecks : checkCases c circuitHash params.repetitions (2 ^ params.width - 1) 0 cases =
      some none := by
    refine checkCases_none.mpr fun k x y hk => ?_
    obtain ⟨hx, hy⟩ := deriveCases_lt hcases (x, y) (List.mem_of_getElem? hk)
    refine checkCase_complete hshape hwidth.2 hadds hx hy ?_ _
    rw [Nat.and_two_pow_sub_one_eq_mod, Nat.mod_mod, wrapping_sum_mod hwidth.2]
  constructor
  · intro hmeets
    exact runStatement_eq_ok.mpr ⟨rfl, hmeets, cases, hcases, hmask ▸ hchecks⟩
  · intro hmeets
    have hne : certify (countResources c params.numSamples) SENTINEL params.demanded ≠ [] :=
      fun h => hmeets (certify_eq_nil.mp h).1
    refine ⟨_, ?_, nodup_certify _ _, fun v => mem_certify⟩
    unfold runStatement
    dsimp only
    rw [hmask, hcases, Option.bind_eq_bind, Option.bind_some, hchecks, Option.bind_eq_bind,
      Option.bind_some]
    exact if_pos hne

end Complete

/-! ## A one-bit adder -/

def addOneText : List Char :=
  "REGISTER r0\nAPPEND_TO_REGISTER q0 r0\nREGISTER r1\nAPPEND_TO_REGISTER q1 r1\nCX q1 q0".toList

theorem parse_addOneText : parse addOneText = pure addOne := rfl

theorem adderRegisters_addOne : AdderRegisters addOne 1 [0] [1] where
  declared := ⟨0, 1, by decide⟩
  width0 := rfl
  width1 := rfl
  distinct := by decide

theorem addsAlways_addOne : AddsAlways addOne 1 1 [0] [1] := by
  intro x y hx hy
  have hcase := fun m : SplitMix64 =>
    checkCase_sound twoRegisters_addOne (by decide) hx hy (checkCase_addOne m hx hy)
  refine ⟨(hcase (.new 0)).1, fun s hs m => ?_⟩
  obtain ⟨s', m', hrun, h⟩ := (hcase m).2 s hs
  refine ⟨s', m', hrun, ?_⟩
  have hsum : ((x + 1 * y % 2 ^ 128) % 2 ^ 128 &&& 1) % 2 ^ 1 = (x + 1 * y) % 2 ^ 1 := by
    rw [show (x + 1 * y % 2 ^ 128) % 2 ^ 128 &&& 1 = _ from Nat.and_two_pow_sub_one_eq_mod _ 1,
      Nat.mod_mod, wrapping_sum_mod (by decide)]
  rwa [hsum] at h

theorem runStatement_complete_addOne :
    (Meets (countResources addOne 1) ⟨1, 2, 0, 5⟩ →
      runStatement addOne [] ⟨1, 1, 1, ⟨1, 2, 0, 5⟩⟩ = some (.ok [1, 2, 0, 5, 42])) ∧
    (¬ Meets (countResources addOne 1) ⟨1, 2, 0, 5⟩ →
      ∃ violations, runStatement addOne [] ⟨1, 1, 1, ⟨1, 2, 0, 5⟩⟩ =
          some (.error (.resourceViolations violations)) ∧
        violations.Nodup ∧ ∀ v, v ∈ violations ↔
          Violated (countResources addOne 1) ⟨1, 2, 0, 5⟩ v) :=
  runStatement_complete addOne [] ⟨1, 1, 1, ⟨1, 2, 0, 5⟩⟩ [0] [1] (by decide) (by decide)
    (by decide) adderRegisters_addOne addsAlways_addOne

/-- **A request for more operand bytes than a vector holds** panics, however good the circuit. -/
theorem oversized_request_panics :
    parse addOneText = pure addOne ∧ AdderRegisters addOne 1 [0] [1] ∧
      AddsAlways addOne 1 1 [0] [1] ∧
      runStatement addOne [] ⟨1, 1, 2 ^ 62, ⟨1, 2, 0, 5⟩⟩ = none := by
  refine ⟨parse_addOneText, adderRegisters_addOne, addsAlways_addOne, ?_⟩
  have hnone : deriveCases [] 1 (2 ^ 62) = none :=
    Option.eq_none_iff_forall_ne_some.mpr fun cases h =>
      absurd (capacity_of_deriveCases h) (by decide)
  unfold runStatement
  dsimp only
  rw [hnone]
  rfl

end GroverTax.Kickmix
