/-
  File:      GroverTax/Cairo/Padding.lean
  Subject:   `next_pow2` and `pad_to_pow2` of src/stwo-side/cairo/src/serialise.cairo.

  The loops take a bound on their turns. `padToPow2_spec` -- up to `2 ^ 31` gates, every bound above
  `n + 1` is enough, nothing overflows, and the padding is neither seen by the validator nor by the
  simulation.
-/
import GroverTax.Cairo.Gates
import GroverTax.Lib.Loop

namespace GroverTax.Cairo

open GroverTax.Lib GroverTax.Gtv1

/-! ## 1. The source -/

/-- The loop doubles `p`. -/
def nextPow2 (fuel n : ℕ) : Option ℕ :=
  if n ≤ 1 then some 1
  else loopUntil (fun p => decide (p ≥ n)) (fun p => checkedMul 32 p 2) fuel 1

def nopGate : Gate := ⟨OP_NOP, NO_CTRL, NO_CTRL, NO_CTRL⟩

/-- One turn of the copying loop: what has been copied, and the counter. -/
def copyGate (gates : List Gate) (st : List Gate × ℕ) : Option (List Gate × ℕ) := do
  let gate ← gates[st.2]?
  return (st.1 ++ [gate], ← checkedAdd 32 st.2 1)

def padToPow2 (fuel : ℕ) (gates : List Gate) : Option (List Gate) := do
  let n := gates.length
  let target ← nextPow2 fuel n
  let (out, _) ← loopUntil (fun st => st.2 == n) (copyGate gates) fuel ([], 0)
  let pad := nopGate
  loopUntil (fun out => out.length == target) (fun out => some (out ++ [pad])) fuel out

/-! ## 2. The target -/

section Target

variable {fuel n : ℕ}

/-- The least power of two that is at least `n`. -/
def IsNextPow2 (n p : ℕ) : Prop := IsLeast {q | (∃ k, q = 2 ^ k) ∧ max 1 n ≤ q} p

/-- **The doubling loop stops at the least power, below the overflow.** -/
theorem nextPow2_spec (h : n ≤ 2 ^ 31) (hf : n ≤ fuel) :
    ∃ p, nextPow2 fuel n = some p ∧ IsNextPow2 n p := by
  unfold nextPow2
  split_ifs with h1
  · refine ⟨1, rfl, ⟨⟨0, rfl⟩, ?_⟩, fun q hq => (le_max_left 1 n).trans hq.2⟩
    exact max_le le_rfl h1
  -- a power below `n` is below every power that is not
  have hstep : ∀ p, (∃ k, p = 2 ^ k ∧ ∀ j, n ≤ 2 ^ j → k ≤ j) → decide (p ≥ n) = false →
      ∃ p', checkedMul 32 p 2 = some p' ∧ (∃ k, p' = 2 ^ k ∧ ∀ j, n ≤ 2 ^ j → k ≤ j) ∧
        n - p' < n - p := by
    intro p hI hd
    obtain ⟨k, rfl, hleast⟩ := hI
    have hlt : 2 ^ k < n := Nat.not_le.mp (of_decide_eq_false hd)
    have hpos := Nat.two_pow_pos k
    refine ⟨2 ^ k * 2, checkedMul_of_lt (by omega), ⟨k + 1, rfl, fun j hj => ?_⟩, by omega⟩
    exact (Nat.pow_lt_pow_iff_right (by decide)).mp (hlt.trans_le hj)
  obtain ⟨p, hp, ⟨k, rfl, hleast⟩, hdone⟩ := loopUntil_of_variant _ _ _ _ hstep
    (show ∃ k, 1 = 2 ^ k ∧ ∀ j, n ≤ 2 ^ j → k ≤ j from ⟨0, rfl, fun j _ => Nat.zero_le j⟩)
    (show n - 1 < fuel by omega)
  refine ⟨2 ^ k, hp, ⟨⟨k, rfl⟩, max_le Nat.one_le_two_pow (of_decide_eq_true hdone)⟩, ?_⟩
  intro q hq
  obtain ⟨⟨j, rfl⟩, hj⟩ := hq
  exact Nat.pow_le_pow_right (by decide) (hleast j ((le_max_right 1 n).trans hj))

theorem IsNextPow2.le {p : ℕ} (h : IsNextPow2 n p) : n ≤ p := (le_max_right 1 n).trans h.1.2

/-- Half of it is below `n`. -/
theorem IsNextPow2.lt {p : ℕ} (h : IsNextPow2 n p) : p < 2 * n ∨ p = 1 := by
  obtain ⟨⟨⟨k, rfl⟩, -⟩, hleast⟩ := h
  cases k with
  | zero => exact Or.inr rfl
  | succ k =>
    refine Or.inl (Nat.lt_of_not_le fun hle => ?_)
    have hk : max 1 n ≤ 2 ^ k := max_le Nat.one_le_two_pow (by omega)
    have hpow := hleast ⟨⟨k, rfl⟩, hk⟩
    have hpos := Nat.two_pow_pos k
    omega

end Target

/-! ## 3. The padding -/

section Padding

variable {fuel : ℕ} {gates : List Gate}

/-- The copying loop copies. -/
theorem loopUntil_copyGate (h : gates.length < 2 ^ 32) (hf : gates.length < fuel) :
    loopUntil (fun st => st.2 == gates.length) (copyGate gates) fuel ([], 0) =
      some (gates, gates.length) := by
  have hstep : ∀ st : List Gate × ℕ, (st.1 = gates.take st.2 ∧ st.2 ≤ gates.length) →
      (st.2 == gates.length) = false → ∃ st', copyGate gates st = some st' ∧
        (st'.1 = gates.take st'.2 ∧ st'.2 ≤ gates.length) ∧
          gates.length - st'.2 < gates.length - st.2 := by
    intro st hI hd
    obtain ⟨hout, hle⟩ := hI
    have hi : st.2 < gates.length := Nat.lt_of_le_of_ne hle (beq_eq_false_iff_ne.mp hd)
    refine ⟨(gates.take (st.2 + 1), st.2 + 1), ?_, ⟨rfl, hi⟩, Nat.sub_succ_lt_self _ _ hi⟩
    rw [copyGate, List.getElem?_eq_getElem hi, checkedAdd_of_lt (by omega), hout,
      List.take_add_one, List.getElem?_eq_getElem hi]
    rfl
  obtain ⟨⟨out, i⟩, hrun, ⟨hout, -⟩, hdone⟩ := loopUntil_of_variant _ _ _ _ hstep
    (show ([], 0).1 = gates.take ([], 0).2 ∧ _ from ⟨List.take_zero.symm, Nat.zero_le _⟩) hf
  obtain rfl : i = gates.length := beq_iff_eq.mp hdone
  rw [hrun, show out = gates from hout.trans List.take_length]

/-- The filling loop appends up to the target. -/
theorem loopUntil_fill (pad : Gate) {target : ℕ} {out : List Gate} (h : out.length ≤ target)
    (hf : target - out.length < fuel) :
    loopUntil (fun out => out.length == target) (fun out => some (out ++ [pad])) fuel out =
      some (out ++ List.replicate (target - out.length) pad) := by
  have hstep : ∀ st : List Gate, (∃ m, st = out ++ List.replicate m pad ∧ st.length ≤ target) →
      (st.length == target) = false → ∃ st', some (st ++ [pad]) = some st' ∧
        (∃ m, st' = out ++ List.replicate m pad ∧ st'.length ≤ target) ∧
          target - st'.length < target - st.length := by
    intro st hI hd
    obtain ⟨m, hst, hle⟩ := hI
    have hne := beq_eq_false_iff_ne.mp hd
    have hlen : (st ++ [pad]).length = st.length + 1 := List.length_append
    refine ⟨_, rfl, ⟨m + 1, ?_, by omega⟩, by omega⟩
    rw [hst, List.append_assoc, List.replicate_succ']
  obtain ⟨filled, hrun, ⟨m, rfl, -⟩, hdone⟩ := loopUntil_of_variant _ _ _ _ hstep
    ⟨0, (List.append_nil _).symm, h⟩ hf
  have hlen : (out ++ List.replicate m pad).length = target := beq_iff_eq.mp hdone
  rw [List.length_append, List.length_replicate] at hlen
  rw [hrun, show target - out.length = m by omega]

theorem rangeCheckGate_nop : rangeCheckGate nopGate = some () := rfl

theorem step_nop (s : State) : step s nopGate = some s := rfl

/-- Padding at the end of a run changes nothing, also where the run panics. -/
theorem run_padding (gates : List Gate) (m : ℕ) (s : State) :
    run step s (gates ++ List.replicate m nopGate) = run step s gates := by
  have hpad : ∀ (m : ℕ) (s : State), run step s (List.replicate m nopGate) = some s := by
    intro m
    induction m with
    | zero => exact fun s => rfl
    | succ m ih =>
      intro s
      rw [List.replicate_succ, run_cons, step_nop, Option.bind_some, ih]
  rw [run_append]
  simp only [hpad, Option.bind_fun_some]

/-- **Padding is harmless.** -/
theorem padToPow2_spec (gates : List Gate) (h : gates.length ≤ 2 ^ 31) (fuel : ℕ)
    (hf : gates.length + 2 ≤ fuel) :
    ∃ padding, padToPow2 fuel gates = some (gates ++ padding) ∧
      IsLeast {q | (∃ k, q = 2 ^ k) ∧ max 1 gates.length ≤ q} (gates ++ padding).length ∧
      (∀ g ∈ padding, rangeCheckGate g = some ()) ∧
      ∀ s, run step s (gates ++ padding) = run step s gates := by
  obtain ⟨target, htarget, hnext⟩ := @nextPow2_spec fuel _ h (by omega)
  have hle := hnext.le
  have hlt := hnext.lt
  refine ⟨List.replicate (target - gates.length) nopGate, ?_, ?_, fun g hg => ?_,
    run_padding gates _⟩
  · have hfill : target - gates.length < fuel := by omega
    rw [padToPow2, htarget]
    simp only [Option.bind_eq_bind, Option.bind_some]
    rw [loopUntil_copyGate (by omega) (by omega), Option.bind_some]
    exact loopUntil_fill nopGate hle hfill
  · rw [List.length_append, List.length_replicate, Nat.add_sub_of_le hle]
    exact hnext
  · rw [List.eq_of_mem_replicate hg]
    exact rangeCheckGate_nop

/-- The theorem at three gates, of which the second is no gate at all. -/
theorem padToPow2_three : ∃ padding,
    padToPow2 5 [⟨OP_NOT, 0, NO_CTRL, NO_CTRL⟩, ⟨9, 0, 0, 0⟩, nopGate] =
      some ([⟨OP_NOT, 0, NO_CTRL, NO_CTRL⟩, ⟨9, 0, 0, 0⟩, nopGate] ++ padding) ∧
      IsLeast {q | (∃ k, q = 2 ^ k) ∧ max 1 3 ≤ q} (3 + padding.length) := by
  obtain ⟨padding, hpad, hleast, -, -⟩ := padToPow2_spec
    [⟨OP_NOT, 0, NO_CTRL, NO_CTRL⟩, ⟨9, 0, 0, 0⟩, nopGate] (by decide) 5 (by decide)
  rw [List.length_append] at hleast
  exact ⟨padding, hpad, hleast⟩

end Padding

end GroverTax.Cairo
