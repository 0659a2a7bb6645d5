/-
  File:      GroverTax/Cairo/Conditions.lean
  Subject:   Condition blocks in the simulator of src/stwo-side/cairo/src/kickmix.cairo.

  A pop leaves its entry in the dictionary, so after a block the dictionary differs from the one
  before it, above `condLen`. `SameVisible` is equality below. `condLen` is a `u32`: a push at
  `2 ^ 32 - 1` panics, and the bound on the depth of a block says when none does.

  * `exec_withStack` -- an active instruction does not see the condition stack;
  * `run_inserted`, `run_suspended` -- a body above one more entry, on or off;
  * **`run_block`** -- a block is its body when the bit is on at the push, and nothing otherwise.
-/
import GroverTax.Cairo.KickmixSim
import GroverTax.Lib.Brackets

namespace GroverTax.Cairo.Kickmix

open GroverTax.Lib

/-! ## 1. Brackets -/

def bracketOf (inst : Inst) : Bracket :=
  if inst.opcode = OP_PUSH_CONDITION then .opens
  else if inst.opcode = OP_POP_CONDITION then .closes
  else .plain

section Step

variable {inst : Inst} {s : State} {rng : Rng}

theorem step_opens (h : bracketOf inst = .opens) :
    step s rng inst = (checkedAdd 32 s.condLen 1).map fun condLen =>
      ({ s with cond := Function.update s.cond s.condLen (s.getB inst.cond)
                condLen := condLen }, rng) := by
  unfold bracketOf at h
  unfold step
  split_ifs at h with h1
  rw [if_pos h1]
  cases checkedAdd 32 s.condLen 1 <;> rfl

theorem step_closes (h : bracketOf inst = .closes) :
    step s rng inst = some ({ s with condLen := s.condLen - 1 }, rng) := by
  unfold bracketOf at h
  unfold step
  split_ifs at h with h1 h2
  rw [if_neg h1, if_pos h2]
  split_ifs with hn
  · rfl
  · obtain ⟨_, _, _, _, n⟩ := s
    obtain rfl : n = 0 := Nat.eq_zero_of_not_pos hn
    rfl

theorem step_plain (h : bracketOf inst = .plain) :
    step s rng inst = if s.active inst.cond then exec s rng inst else some (s, rng) := by
  unfold bracketOf at h
  unfold step
  split_ifs at h with h1 h2
  rw [if_neg h1, if_neg h2]

end Step

/-! ## 2. What an active instruction does not see -/

namespace State

/-- The state with another condition stack. -/
def withStack (cond : ℕ → ℕ) (condLen : ℕ) (s : State) : State :=
  { s with cond := cond, condLen := condLen }

variable {cond : ℕ → ℕ} {condLen : ℕ} {s : State}

@[simp] theorem withStack_getQ (i : ℕ) : (s.withStack cond condLen).getQ i = s.getQ i := rfl

@[simp] theorem withStack_getB (i : ℕ) : (s.withStack cond condLen).getB i = s.getB i := rfl

theorem withStack_insertQ (i v : ℕ) :
    (s.withStack cond condLen).insertQ i v = (s.insertQ i v).withStack cond condLen := rfl

theorem withStack_insertB (i v : ℕ) :
    (s.withStack cond condLen).insertB i v = (s.insertB i v).withStack cond condLen := rfl

theorem withStack_flipQ (i : ℕ) :
    (s.withStack cond condLen).flipQ i = (s.flipQ i).map (withStack cond condLen) := by
  unfold flipQ
  rw [withStack_getQ]
  cases checkedSub 1 (s.getQ i) <;> rfl

theorem withStack_flipPhase :
    (s.withStack cond condLen).flipPhase = s.flipPhase.map (withStack cond condLen) := by
  unfold flipPhase
  change ((checkedSub 1 s.phase).bind _) = _
  cases checkedSub 1 s.phase <;> rfl

/-- Every entry of the stack is on, and so is the bit of the instruction. -/
theorem active_iff {c : ℕ} :
    s.active c = true ↔ (∀ i < s.condLen, s.cond i ≠ 0) ∧ (c ≠ NO_COND → s.getB c = 1) := by
  have hall : ((List.range s.condLen).all fun i => decide (s.cond i ≠ 0)) = true ↔
      ∀ i < s.condLen, s.cond i ≠ 0 := by
    simp [List.all_eq_true]
  unfold active
  rw [foldl_ok, Bool.true_and]
  simp only [← hall]
  by_cases hc : c = NO_COND <;> simp [hc]

end State

/-- **An active instruction does not see the condition stack.** -/
theorem exec_withStack {cond : ℕ → ℕ} {condLen : ℕ} (s : State) (rng : Rng) (inst : Inst) :
    exec (s.withStack cond condLen) rng inst =
      (exec s rng inst).map fun r => (r.1.withStack cond condLen, r.2) := by
  have hmap : ∀ (p : Prop) [Decidable p] (x y : Option (State × Rng)),
      (if p then x else y).map (fun r => (r.1.withStack cond condLen, r.2)) =
        if p then x.map (fun r => (r.1.withStack cond condLen, r.2))
        else y.map fun r => (r.1.withStack cond condLen, r.2) :=
    fun p _ x y => apply_ite (Option.map _) p x y
  unfold exec
  simp only [hmap, State.withStack_getQ, State.withStack_getB, State.withStack_flipQ,
    State.withStack_flipPhase, State.withStack_insertQ, State.withStack_insertB,
    Option.bind_eq_bind, Option.pure_def, Option.bind_map, Option.map_bind, Function.comp_def,
    Option.map_some, Option.map_none, Option.bind_some]

/-- It leaves the condition stack alone. -/
theorem exec_stack {s : State} {rng : Rng} {inst : Inst} {r : State × Rng}
    (h : exec s rng inst = some r) : r.1.cond = s.cond ∧ r.1.condLen = s.condLen := by
  have hs : s.withStack s.cond s.condLen = s := rfl
  rw [← hs, exec_withStack] at h
  obtain ⟨r', -, rfl⟩ := Option.map_eq_some_iff.mp h
  exact ⟨rfl, rfl⟩

/-! ## 3. Blocks -/

/-- Equality below the top of the condition stack. -/
structure SameVisible (r r' : State × Rng) : Prop where
  qubits : r.1.qubits = r'.1.qubits
  bits : r.1.bits = r'.1.bits
  phase : r.1.phase = r'.1.phase
  condLen : r.1.condLen = r'.1.condLen
  cond : ∀ i < r'.1.condLen, r.1.cond i = r'.1.cond i
  rng : r.2 = r'.2

/-- The second state is the first without the entry `k`, which is on; `d` entries lie above it. -/
def Inserted (k d : ℕ) (r r' : State × Rng) : Prop :=
  r'.1.condLen = k + d ∧ ∃ cond, r = (r'.1.withStack cond (k + d + 1), r'.2) ∧
    (∀ i < k, cond i = r'.1.cond i) ∧ cond k ≠ 0 ∧ ∀ i < d, cond (k + 1 + i) = r'.1.cond (k + i)

/-- One more entry that is on changes nothing. -/
theorem Inserted.active {k d : ℕ} {r r' : State × Rng} (h : Inserted k d r r') (c : ℕ) :
    r.1.active c = r'.1.active c := by
  obtain ⟨hlen, cond, rfl, hlow, hk, hhigh⟩ := h
  rw [Bool.eq_iff_iff, State.active_iff, State.active_iff, hlen]
  refine and_congr_left fun _ => ?_
  constructor
  · intro hall i hi
    by_cases hik : i < k
    · rw [← hlow i hik]
      exact hall i (by simp only [State.withStack]; omega)
    · have := hall (k + 1 + (i - k)) (by simp only [State.withStack]; omega)
      have e := hhigh (i - k) (by omega)
      rw [Nat.add_sub_cancel' (by omega)] at e
      rw [← e]
      exact this
  · intro hall i hi
    simp only [State.withStack] at hi ⊢
    rcases Nat.lt_trichotomy i k with hik | rfl | hik
    · rw [hlow i hik]
      exact hall i (by omega)
    · exact hk
    · have e := hhigh (i - k - 1) (by omega)
      rw [show k + 1 + (i - k - 1) = i by omega] at e
      rw [e]
      exact hall _ (by omega)

/-- **One more entry that is on changes nothing a body does**, while the depth fits a `u32`. -/
theorem run_inserted {k N : ℕ} {body : List Inst} (hb : Balanced bracketOf 0 body)
    (hN : nesting bracketOf 0 body ≤ N) (hk : k + 1 + N < 2 ^ 32) {r r' : State × Rng}
    (h : Inserted k 0 r r') :
    Option.Rel (Inserted k 0) (run r.1 r.2 body) (run r'.1 r'.2 body) := by
  refine run_rel ?_ ?_ ?_ hb hN h
  · rintro d hd inst _ ⟨s, rng⟩ ho ⟨hlen, cond, rfl, hlow, hon, hhigh⟩
    simp only at hlen hlow hhigh
    rw [step_opens ho, step_opens ho, State.withStack, checkedAdd_of_lt (by simp only; omega),
      checkedAdd_of_lt (by simp only; omega)]
    refine .some ⟨by simp only; omega, Function.update cond (k + d + 1) (s.getB inst.cond), ?_, ?_,
      ?_, ?_⟩
    · rfl
    · intro i hi
      simp only
      rw [Function.update_of_ne (by omega), Function.update_of_ne (by omega), hlow i hi]
    · rwa [Function.update_of_ne (by omega)]
    · intro i hi
      simp only
      rcases Nat.lt_or_eq_of_le (Nat.le_of_lt_succ hi) with hi | rfl
      · rw [Function.update_of_ne (by omega), Function.update_of_ne (by omega), hhigh i hi]
      · rw [show k + 1 + i = k + i + 1 by omega, ← hlen, Function.update_self,
          Function.update_self]
  · rintro d inst _ ⟨s, rng⟩ hc ⟨hlen, cond, rfl, hlow, hon, hhigh⟩
    simp only at hlen hlow hhigh
    rw [step_closes hc, step_closes hc]
    refine .some ⟨by simp only; omega, cond, ?_, hlow, hon, fun i hi => hhigh i (by omega)⟩
    rfl
  · rintro d inst r r' hp h
    rw [step_plain hp, step_plain hp, h.active]
    split_ifs with ha
    · obtain ⟨hlen, cond, rfl, hlow, hon, hhigh⟩ := h
      rw [exec_withStack]
      cases hr : exec r'.1 r'.2 inst with
      | none => exact .none
      | some r1 =>
        obtain ⟨ec, el⟩ := exec_stack hr
        exact .some ⟨el.trans hlen, cond, rfl, by rwa [ec], hon, by rwa [ec]⟩
    · exact .some h

/-- The first state with the entry `k` off and `d` entries above it. -/
def Suspended (k : ℕ) (r0 : State × Rng) (d : ℕ) (r : State × Rng) (_ : Unit) : Prop :=
  ∃ cond, r = (r0.1.withStack cond (k + d + 1), r0.2) ∧ (∀ i < k, cond i = r0.1.cond i) ∧
    cond k = 0

/-- **Under an entry that is off a body does nothing**, while the depth fits a `u32`. -/
theorem run_suspended {k N : ℕ} {body : List Inst} (hb : Balanced bracketOf 0 body)
    (hN : nesting bracketOf 0 body ≤ N) (hk : k + 1 + N < 2 ^ 32) {r0 r : State × Rng}
    (h : Suspended k r0 0 r ()) : ∃ r', run r.1 r.2 body = some r' ∧ Suspended k r0 0 r' () := by
  have hskip : ∀ as : List Inst, Lib.run (fun (_ : Unit) (_ : Inst) => some ()) () as = some () :=
    fun as => run_checks.mpr fun _ _ => rfl
  refine rel_some_iff.mp (hskip body ▸ run_rel ?_ ?_ ?_ hb hN h)
  · rintro d hd inst _ - ho ⟨cond, rfl, hlow, hoff⟩
    rw [step_opens ho, State.withStack, checkedAdd_of_lt (by simp only; omega)]
    refine .some ⟨Function.update cond (k + d + 1) (r0.1.getB inst.cond), rfl, fun i hi => ?_, ?_⟩
    · rw [Function.update_of_ne (by omega), hlow i hi]
    · rwa [Function.update_of_ne (by omega)]
  · rintro d inst _ - hc ⟨cond, rfl, hlow, hoff⟩
    rw [step_closes hc]
    exact .some ⟨cond, rfl, hlow, hoff⟩
  · rintro d inst _ - hp ⟨cond, rfl, hlow, hoff⟩
    have hinactive : (r0.1.withStack cond (k + d + 1)).active inst.cond = false :=
      Bool.eq_false_iff.mpr fun hact =>
        (State.active_iff.mp hact).1 k (by simp only [State.withStack]; omega) hoff
    rw [step_plain hp, hinactive, if_neg Bool.false_ne_true]
    exact .some ⟨cond, rfl, hlow, hoff⟩

/-- PUSH_CONDITION if `b`, the body, POP_CONDITION. -/
def conditionBlock (b : ℕ) (body : List Inst) : List Inst :=
  ⟨OP_PUSH_CONDITION, NO_TARGET, NO_TARGET, NO_TARGET, b⟩ :: body ++
    [⟨OP_POP_CONDITION, NO_TARGET, NO_TARGET, NO_TARGET, NO_COND⟩]

/-- A block pushes the bit, runs its body and pops. -/
theorem run_conditionBlock (b : ℕ) (body : List Inst) (s : State) (rng : Rng) :
    run s rng (conditionBlock b body) = (checkedAdd 32 s.condLen 1).bind fun condLen =>
      (run (s.withStack (Function.update s.cond s.condLen (s.getB b)) condLen) rng body).map
        fun r => ({ r.1 with condLen := r.1.condLen - 1 }, r.2) := by
  have hpush : bracketOf ⟨OP_PUSH_CONDITION, NO_TARGET, NO_TARGET, NO_TARGET, b⟩ = .opens := rfl
  have hpop : bracketOf ⟨OP_POP_CONDITION, NO_TARGET, NO_TARGET, NO_TARGET, NO_COND⟩ = .closes :=
    rfl
  rw [conditionBlock, List.cons_append, run, run_cons, step_opens hpush, Option.bind_map]
  refine congrArg _ (funext fun condLen => ?_)
  rw [Function.comp_apply, run_append]
  refine (congrArg _ (funext fun r => ?_)).trans (Option.map_eq_bind ..).symm
  rw [run_cons, step_closes hpop]
  rfl

/-- **A block is its body when the bit is on at the push, and does nothing otherwise**, while the
    depth of the condition stack fits a `u32`. -/
theorem run_block {body : List Inst} (hb : Balanced bracketOf 0 body) (b : ℕ) {s : State}
    (rng : Rng) (hdepth : s.condLen + 1 + nesting bracketOf 0 body < 2 ^ 32) :
    Option.Rel SameVisible (run s rng (conditionBlock b body))
      (if s.getB b = 0 then some (s, rng) else run s rng body) := by
  rw [run_conditionBlock, checkedAdd_of_lt (by omega), Option.bind_some]
  split_ifs with hv
  · have h : Suspended s.condLen (s, rng) 0
        (s.withStack (Function.update s.cond s.condLen (s.getB b)) (s.condLen + 1), rng) () :=
      ⟨_, rfl, fun i hi => Function.update_of_ne (Nat.ne_of_lt hi) _ _,
        (Function.update_self ..).trans hv⟩
    obtain ⟨r, e, cond, rfl, hlow, -⟩ := run_suspended hb le_rfl hdepth h
    rw [e, Option.map_some]
    exact .some ⟨rfl, rfl, rfl, rfl, hlow, rfl⟩
  · have h : Inserted s.condLen 0
        (s.withStack (Function.update s.cond s.condLen (s.getB b)) (s.condLen + 1), rng)
        (s, rng) :=
      ⟨rfl, _, rfl, fun i hi => Function.update_of_ne (Nat.ne_of_lt hi) _ _,
        by rwa [Function.update_self], fun i hi => absurd hi i.not_lt_zero⟩
    refine rel_map_left (run_inserted hb le_rfl hdepth h) ?_
    rintro _ r ⟨hlen, cond, rfl, hlow, -, -⟩
    exact ⟨rfl, rfl, rfl, hlen.symm, fun i hi => hlow i (hi.trans_eq hlen), rfl⟩

end GroverTax.Cairo.Kickmix
