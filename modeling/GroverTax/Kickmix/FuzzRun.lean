/-
  File:      GroverTax/Kickmix/FuzzRun.lean
  Subject:   `fuzz` of src/kickmix/src/lib.rs: the cases, each on as many trajectories as are asked
             for, and what it leaves out.

  * `checkCase_taken` -- the verdict under any source is the verdict under a stream of bits, one for
    each R and each HMR;
  * **`streams_suffice`** -- **so these finitely many streams stand for every source**;
  * **`fuzz_exact`** -- **which case and which trajectory decide a run of `fuzz`**, that no two of its
    shots share a generator, and that a circuit that passes on the streams passes every run.
-/
import GroverTax.Kickmix.Passing
import GroverTax.Kickmix.Trajectories

namespace GroverTax.Kickmix

open GroverTax.Lib

/-! ## 1. Streams -/

/-- Whether an instruction can ask for a bit of the source. -/
def canAsk (inst : Instruction) : Bool :=
  (Op.ofName inst.name).any fun op => op = .r || op = .hmr

/-- How many instructions can. -/
def askCount (insts : List Instruction) : ℕ := insts.countP canAsk

/-- The next `n` bits of a source. -/
def taken {M : Type} [MeasureSource M] : ℕ → M → List Bool
  | 0, _ => []
  | n + 1, m => (nextBit m).1 :: taken n (nextBit m).2

section Streams

variable {M N : Type} [MeasureSource M] [MeasureSource N] {inst : Instruction}
  {insts : List Instruction} {s : State} {c : Circuit} {case : FuzzCase}

theorem length_taken : ∀ (n : ℕ) (m : M), (taken n m).length = n
  | 0, _ => rfl
  | n + 1, m => congrArg (· + 1) (length_taken n (nextBit m).2)

theorem canAsk_of_asksNow (h : asksNow inst s = true) : canAsk inst = true := by
  unfold asksNow at h
  rw [Option.any_eq_true] at h
  obtain ⟨op, hop, hasks⟩ := h
  rw [canAsk, acts_ofName hop, Option.any_some]
  cases op <;> first | rfl | exact absurd hasks Bool.false_ne_true

/-- **A run under any source is the run under the bits it takes**, or under more of them. -/
theorem run_taken : ∀ {insts : List Instruction} {s : State} {k : ℕ} (m : M), askCount insts ≤ k →
    (runInstructions insts s m).map Prod.fst =
      (runInstructions insts s (⟨taken k m⟩ : Tape)).map Prod.fst
  | [], _, _, _, _ => rfl
  | inst :: insts, s, k, m, h => by
      have hcount : askCount (inst :: insts) = askCount insts + if canAsk inst then 1 else 0 :=
        List.countP_cons
      have hnext : ∀ {k : ℕ}, (nextBit (⟨taken (k + 1) m⟩ : Tape)).1 = (nextBit m).1 := rfl
      rw [runInstructions_cons, runInstructions_cons, step_eq_after, step_eq_after]
      cases hask : asksNow inst s with
      | true =>
        rw [hcount, if_pos (canAsk_of_asksNow hask)] at h
        obtain ⟨k, rfl⟩ : ∃ k', k = k' + 1 := ⟨k - 1, by omega⟩
        rw [hnext]
        cases after inst (nextBit m).1 s with
        | none => rfl
        | some s1 => exact run_taken (nextBit m).2 (by omega)
      | false =>
        rw [after_idle hask (nextBit m).1 (nextBit (⟨taken k m⟩ : Tape)).1]
        cases after inst (nextBit (⟨taken k m⟩ : Tape)).1 s with
        | none => rfl
        | some s1 => exact run_taken m (by omega)

/-- A fixed stream read from its beginning. -/
theorem run_fixedBits (insts : List Instruction) (s : State) (bits : List Bool) :
    (runInstructions insts s (FixedBits.new bits)).map Prod.fst =
      (runInstructions insts s (⟨bits⟩ : Tape)).map Prod.fst := by
  have hmap := run_unseen FixedBits.nextBit_rest insts s false (FixedBits.new bits)
  have hsign : ∀ t : State, t.xorPhase false = t := fun t => by simp [State.xorPhase]
  rw [hsign] at hmap
  refine Eq.trans ?_ (congrArg (Option.map Prod.fst) hmap).symm
  rw [Option.map_map]
  refine congrArg (fun f => Option.map f _) (funext fun r => ?_)
  exact (hsign r.1).symm

/-- The verdict is that of the state at the end. -/
theorem checkCase_congr {m : M} {n : N}
    (h : ∀ s, (run c s m).map Prod.fst = (run c s n).map Prod.fst) :
    checkCase c case m = checkCase c case n := by
  unfold checkCase
  dsimp only
  refine congrArg _ (funext fun s => ?_)
  have hs := h s
  cases hm : run c s m with
  | none =>
    rw [hm] at hs
    cases hn : run c s n with
    | none => rfl
    | some r => rw [hn] at hs; cases hs
  | some r =>
    rw [hm] at hs
    cases hn : run c s n with
    | none => rw [hn] at hs; cases hs
    | some r' =>
      rw [hn] at hs
      obtain ⟨s1, m1⟩ := r
      obtain ⟨s2, n2⟩ := r'
      obtain rfl : s1 = s2 := Option.some.inj hs
      rfl

/-- **The verdict under any source is the verdict under a stream of bits.** -/
theorem checkCase_taken (c : Circuit) (case : FuzzCase) (m : M) :
    checkCase c case m =
      checkCase c case (FixedBits.new (taken (askCount c.instructions) m)) :=
  checkCase_congr fun s => (run_taken m (Nat.le_refl _)).trans (run_fixedBits _ s _).symm

/-- **The streams of one bit for each R and each HMR stand for every source**: what holds of the
    verdict on them holds of it on every source, and there are `2 ^ askCount` of them. -/
theorem streams_suffice (c : Circuit) (case : FuzzCase) (P : Option (Option FuzzFailure) → Prop) :
    (∀ bits : List Bool, bits.length = askCount c.instructions →
      P (checkCase c case (FixedBits.new bits))) ↔
    ∀ (M : Type) [MeasureSource M] (m : M), P (checkCase c case m) := by
  constructor
  · intro h M _ m
    rw [checkCase_taken]
    exact h _ (length_taken _ m)
  · exact fun h bits _ => h FixedBits (FixedBits.new bits)

end Streams

/-! ## 2. The loops -/

/-- The loop over the shots of a case: the master generator and the shots counted, in a `usize` that
    wraps. -/
def fuzzShots (circuit : Circuit) (case : FuzzCase) :
    ℕ → SplitMix64 → UInt64 → Option (Except FuzzFailure (SplitMix64 × UInt64))
  | 0, rng, total => some (.ok (rng, total))
  | shots + 1, rng, total => do
      let (seed, rng) := rng.nextU64
      match ← checkCase circuit case (SplitMix64.new seed) with
      | some failure => return .error failure
      | none => fuzzShots circuit case shots rng (total + 1)

/-- The loop over the cases, from number `ci` on. -/
def fuzzCases (circuit : Circuit) (shotsPerCase : ℕ) :
    ℕ → List FuzzCase → SplitMix64 → UInt64 → Option (Except (ℕ × FuzzFailure) UInt64)
  | _, [], _, total => some (.ok total)
  | ci, case :: cases, rng, total => do
      match ← fuzzShots circuit case shotsPerCase rng total with
      | .error failure => return .error (ci, failure)
      | .ok (rng, total) => fuzzCases circuit shotsPerCase (ci + 1) cases rng total

def fuzz (circuit : Circuit) (cases : List FuzzCase) (shotsPerCase : ℕ) (seed : UInt64) :
    Option (Except (ℕ × FuzzFailure) UInt64) :=
  fuzzCases circuit shotsPerCase 0 cases (SplitMix64.new seed) 0

/-! ## 3. The shots -/

/-- The source of shot number `n`. -/
def shotSource (seed : UInt64) (n : ℕ) : SplitMix64 :=
  SplitMix64.new ((SplitMix64.new seed).word n)

section Shots

variable {c : Circuit} {case : FuzzCase} {cases : List FuzzCase} {rng : SplitMix64}
  {shots : ℕ} {failure : FuzzFailure}

theorem word_zero (rng : SplitMix64) : rng.word 0 = rng.nextU64.1 := by
  rw [SplitMix64.word, Function.iterate_zero_apply]

theorem word_succ (rng : SplitMix64) (n : ℕ) : rng.word (n + 1) = rng.next.word n := by
  rw [SplitMix64.word, SplitMix64.word, Function.iterate_succ_apply]

/-- One shot, then the others. -/
theorem fuzzShots_succ (shots : ℕ) (rng : SplitMix64) (total : UInt64) :
    fuzzShots c case (shots + 1) rng total =
      (checkCase c case (SplitMix64.new (rng.word 0))).bind fun verdict =>
        verdict.elim (fuzzShots c case shots rng.next (total + 1)) fun failure =>
          some (.error failure) := by
  rw [word_zero, fuzzShots, SplitMix64.next]
  generalize rng.nextU64 = r
  refine congrArg (Option.bind _) (funext fun verdict => ?_)
  cases verdict <;> rfl

/-- **The shots of a case all pass**, -/
theorem fuzzShots_eq_ok {r : SplitMix64 × UInt64} :
    ∀ {shots : ℕ} {rng : SplitMix64} {total : UInt64},
    fuzzShots c case shots rng total = some (.ok r) ↔
      r = (SplitMix64.next^[shots] rng, total + .ofNat shots) ∧
        ∀ j < shots, checkCase c case (SplitMix64.new (rng.word j)) = some none
  | 0, rng, total => by
      rw [show total + .ofNat 0 = total from UInt64.add_zero total]
      refine ⟨fun h => ?_, fun h => ?_⟩
      · obtain rfl := Except.ok.inj (Option.some.inj h)
        exact ⟨rfl, fun j hj => absurd hj (Nat.not_lt_zero j)⟩
      · rw [h.1]
        rfl
  | shots + 1, rng, total => by
      have hsum : total + .ofNat (shots + 1) = total + 1 + .ofNat shots := by
        rw [Nat.add_comm, UInt64.ofNat_add, ← UInt64.add_assoc]
        rfl
      rw [fuzzShots_succ, Option.bind_eq_some_iff, Function.iterate_succ_apply, hsum]
      constructor
      · rintro ⟨v, hv, h⟩
        cases v with
        | some failure => cases h
        | none =>
          obtain ⟨hr, hall⟩ := fuzzShots_eq_ok.mp h
          refine ⟨hr, fun j hj => ?_⟩
          cases j with
          | zero => exact hv
          | succ j =>
            rw [word_succ]
            exact hall j (by omega)
      · rintro ⟨hr, hall⟩
        refine ⟨none, hall 0 (Nat.succ_pos _), fuzzShots_eq_ok.mpr ⟨hr, fun j hj => ?_⟩⟩
        rw [← word_succ]
        exact hall (j + 1) (by omega)

/-- or one of them is the first to fail. -/
theorem fuzzShots_eq_error : ∀ {shots : ℕ} {rng : SplitMix64} {total : UInt64},
    fuzzShots c case shots rng total = some (.error failure) ↔
      ∃ j < shots, checkCase c case (SplitMix64.new (rng.word j)) = some (some failure) ∧
        ∀ i < j, checkCase c case (SplitMix64.new (rng.word i)) = some none
  | 0, rng, total => by
      refine ⟨fun h => ?_, fun h => ?_⟩
      · cases h
      · obtain ⟨j, hj, -⟩ := h
        exact absurd hj (Nat.not_lt_zero j)
  | shots + 1, rng, total => by
      rw [fuzzShots_succ, Option.bind_eq_some_iff]
      constructor
      · rintro ⟨v, hv, h⟩
        cases v with
        | some failure' =>
          obtain rfl := Except.error.inj (Option.some.inj h)
          exact ⟨0, Nat.succ_pos _, hv, fun i hi => absurd hi (Nat.not_lt_zero i)⟩
        | none =>
          obtain ⟨j, hj, hfail, hpass⟩ := fuzzShots_eq_error.mp h
          refine ⟨j + 1, by omega, by rwa [word_succ], fun i hi => ?_⟩
          cases i with
          | zero => exact hv
          | succ i =>
            rw [word_succ]
            exact hpass i (by omega)
      · rintro ⟨j, hj, hfail, hpass⟩
        cases j with
        | zero => exact ⟨some failure, hfail, rfl⟩
        | succ j =>
          refine ⟨none, hpass 0 (Nat.succ_pos _), fuzzShots_eq_error.mpr
            ⟨j, by omega, by rwa [← word_succ], fun i hi => ?_⟩⟩
          rw [← word_succ]
          exact hpass (i + 1) (by omega)

/-- Shot `j` of case `i`, in the order of the loops, passes. -/
def ShotPasses (c : Circuit) (cases : List FuzzCase) (shots : ℕ) (rng : SplitMix64) (i j : ℕ) :
    Prop :=
  ∀ case, cases[i]? = some case →
    checkCase c case (SplitMix64.new (rng.word (i * shots + j))) = some none

theorem word_iterate (rng : SplitMix64) (m n : ℕ) :
    (SplitMix64.next^[m] rng).word n = rng.word (m + n) := by
  rw [SplitMix64.word, SplitMix64.word, ← Function.iterate_add_apply, Nat.add_comm n m]

/-- What the later cases see of the master generator. -/
theorem shotPasses_succ {i j : ℕ} :
    ShotPasses c cases shots (SplitMix64.next^[shots] rng) i j ↔
      ShotPasses c (case :: cases) shots rng (i + 1) j := by
  unfold ShotPasses
  rw [List.getElem?_cons_succ, word_iterate, show shots + (i * shots + j) = (i + 1) * shots + j by
    ring]

/-- The shots of the first case come first. -/
theorem shotPasses_zero (hall : ∀ j < shots,
    checkCase c case (SplitMix64.new (rng.word j)) = some none) {j : ℕ} (hj : j < shots) :
    ShotPasses c (case :: cases) shots rng 0 j := by
  intro case' hcase
  obtain rfl := Option.some.inj hcase
  rw [Nat.zero_mul, Nat.zero_add]
  exact hall j hj

/-- **Every shot of every case passes**, -/
theorem fuzzCases_eq_ok : ∀ {cases : List FuzzCase} {ci : ℕ} {rng : SplitMix64} {total n : UInt64},
    fuzzCases c shots ci cases rng total = some (.ok n) ↔
      n = total + .ofNat (cases.length * shots) ∧ ∀ i j, j < shots → ShotPasses c cases shots rng i j
  | [], ci, rng, total, n => by
      rw [List.length_nil, Nat.zero_mul, show total + .ofNat 0 = total from UInt64.add_zero total]
      refine ⟨fun h => ?_, fun h => ?_⟩
      · obtain rfl := Except.ok.inj (Option.some.inj h)
        exact ⟨rfl, fun i j _ case hcase => nomatch hcase⟩
      · rw [h.1]
        rfl
  | case :: cases, ci, rng, total, n => by
      have hlen : total + .ofNat ((case :: cases).length * shots) =
          total + .ofNat shots + .ofNat (cases.length * shots) := by
        rw [List.length_cons, Nat.succ_mul, Nat.add_comm, UInt64.ofNat_add, UInt64.add_assoc]
      rw [fuzzCases, Option.bind_eq_bind, Option.bind_eq_some_iff, hlen]
      constructor
      · rintro ⟨v, hv, h⟩
        cases v with
        | error failure => cases h
        | ok r =>
          obtain ⟨rfl, hall⟩ := fuzzShots_eq_ok.mp hv
          obtain ⟨hn, hrest⟩ := fuzzCases_eq_ok.mp h
          refine ⟨hn, fun i j hj => ?_⟩
          cases i with
          | zero => exact shotPasses_zero hall hj
          | succ i => exact shotPasses_succ.mp (hrest i j hj)
      · rintro ⟨hn, hall⟩
        refine ⟨.ok _, fuzzShots_eq_ok.mpr ⟨rfl, fun j hj => ?_⟩, fuzzCases_eq_ok.mpr
          ⟨hn, fun i j hj => shotPasses_succ.mpr (hall (i + 1) j hj)⟩⟩
        have h := hall 0 j hj case rfl
        rwa [Nat.zero_mul, Nat.zero_add] at h

/-- The case that fails is one of the remaining ones. -/
theorem le_of_fuzzCases_error : ∀ {cases : List FuzzCase} {ci m : ℕ} {rng : SplitMix64}
    {total : UInt64},
    fuzzCases c shots ci cases rng total = some (.error (m, failure)) → ci ≤ m
  | [], _, _, _, _, h => nomatch h
  | case :: cases, ci, m, rng, total, h => by
      rw [fuzzCases, Option.bind_eq_bind, Option.bind_eq_some_iff] at h
      obtain ⟨v, -, h⟩ := h
      cases v with
      | error failure' => exact (Prod.mk.inj (Except.error.inj (Option.some.inj h))).1.le
      | ok r => exact (Nat.le_succ ci).trans (le_of_fuzzCases_error h)

/-- or one is the first to fail. -/
theorem fuzzCases_eq_error : ∀ {cases : List FuzzCase} {ci i : ℕ} {rng : SplitMix64} {total : UInt64},
    fuzzCases c shots ci cases rng total = some (.error (ci + i, failure)) ↔
      ∃ case j, cases[i]? = some case ∧ j < shots ∧
        checkCase c case (SplitMix64.new (rng.word (i * shots + j))) = some (some failure) ∧
        ∀ i' j', j' < shots → i' * shots + j' < i * shots + j → ShotPasses c cases shots rng i' j'
  | [], ci, i, rng, total => by
      refine ⟨fun h => ?_, fun h => ?_⟩
      · cases h
      · obtain ⟨case, j, hcase, -⟩ := h
        cases hcase
  | case :: cases, ci, i, rng, total => by
      rw [fuzzCases, Option.bind_eq_bind, Option.bind_eq_some_iff]
      constructor
      · rintro ⟨v, hv, h⟩
        cases v with
        | error failure' =>
          obtain ⟨hi, rfl⟩ := Prod.mk.inj (Except.error.inj (Option.some.inj h))
          obtain rfl : i = 0 := by omega
          obtain ⟨j, hj, hfail, hpass⟩ := fuzzShots_eq_error.mp hv
          refine ⟨case, j, rfl, hj, by rwa [Nat.zero_mul, Nat.zero_add], fun i' j' hj' hlt => ?_⟩
          have hi' : i' = 0 := by
            by_contra hne
            have := Nat.le_mul_of_pos_left shots (Nat.pos_of_ne_zero hne)
            omega
          subst hi'
          intro case' hcase
          obtain rfl := Option.some.inj hcase
          rw [Nat.zero_mul, Nat.zero_add] at hlt ⊢
          exact hpass j' (by omega)
        | ok r =>
          obtain ⟨rfl, hall⟩ := fuzzShots_eq_ok.mp hv
          have hge := le_of_fuzzCases_error h
          obtain ⟨i, rfl⟩ : ∃ i', i = i' + 1 := ⟨i - 1, by omega⟩
          rw [← Nat.add_assoc, Nat.add_right_comm] at h
          obtain ⟨case', j, hcase, hj, hfail, hpass⟩ := fuzzCases_eq_error.mp h
          have hplace : shots + (i * shots + j) = (i + 1) * shots + j := by ring
          rw [word_iterate, hplace] at hfail
          refine ⟨case', j, hcase, hj, hfail, fun i' j' hj' hlt => ?_⟩
          cases i' with
          | zero => exact shotPasses_zero hall hj'
          | succ i' => exact shotPasses_succ.mp (hpass i' j' hj' (by
              rw [Nat.succ_mul, Nat.succ_mul] at hlt
              omega))
      · rintro ⟨case', j, hcase, hj, hfail, hpass⟩
        cases i with
        | zero =>
          obtain rfl := Option.some.inj hcase
          rw [Nat.zero_mul, Nat.zero_add] at hfail hpass
          refine ⟨.error failure, fuzzShots_eq_error.mpr ⟨j, hj, hfail, fun i hi => ?_⟩, rfl⟩
          have h := hpass 0 i (by omega) (by omega) case rfl
          rwa [Nat.zero_mul, Nat.zero_add] at h
        | succ i =>
          have hplace : shots + (i * shots + j) = (i + 1) * shots + j := by ring
          have hfirst : ∀ j' < shots,
              checkCase c case (SplitMix64.new (rng.word j')) = some none := by
            intro j' hj'
            have hlt : 0 * shots + j' < (i + 1) * shots + j := by
              rw [Nat.succ_mul]
              omega
            have h := hpass 0 j' hj' hlt case rfl
            rwa [Nat.zero_mul, Nat.zero_add] at h
          refine ⟨.ok _, fuzzShots_eq_ok.mpr ⟨rfl, hfirst⟩, ?_⟩
          dsimp only
          rw [show ci + (i + 1) = ci + 1 + i by omega]
          refine fuzzCases_eq_error.mpr ⟨case', j, hcase, hj, by rwa [word_iterate, hplace],
            fun i' j' hj' hlt => shotPasses_succ.mpr (hpass (i' + 1) j' hj' ?_)⟩
          rw [Nat.succ_mul, Nat.succ_mul]
          omega

/-- **No two shots share a generator**, nor the first word of one. -/
theorem shotSource_ne {seed : UInt64} {m n : ℕ} (hm : m < 2 ^ 64) (hn : n < 2 ^ 64) (hne : m ≠ n) :
    (shotSource seed m).nextU64.1 ≠ (shotSource seed n).nextU64.1 := by
  have hstate : ∀ (k : ℕ) (s : SplitMix64),
      SplitMix64.next^[k] s = ⟨s.state + UInt64.ofNat k * GAMMA⟩ := by
    intro k
    induction k with
    | zero =>
      intro s
      show s = ⟨s.state + 0 * GAMMA⟩
      rw [UInt64.zero_mul, UInt64.add_zero]
    | succ k ih =>
      intro s
      rw [Function.iterate_succ_apply, ih]
      show (⟨s.state + GAMMA + UInt64.ofNat k * GAMMA⟩ : SplitMix64) = _
      rw [UInt64.ofNat_add, UInt64.add_mul, UInt64.add_assoc, UInt64.add_comm GAMMA]
      congr 2
  intro h
  have hword : (SplitMix64.new seed).word m = (SplitMix64.new seed).word n :=
    SplitMix64.mk.inj (word_injective 0 h)
  have hnext : SplitMix64.next^[m] (SplitMix64.new seed) =
      SplitMix64.next^[n] (SplitMix64.new seed) :=
    eq_of_add_gamma (mix_injective hword)
  rw [hstate, hstate, SplitMix64.mk.injEq, UInt64.add_right_inj] at hnext
  have hindex : UInt64.ofNat m = UInt64.ofNat n := UInt64.mul_odd_injective (by decide) hnext
  rw [← UInt64.toNat_ofNat_of_lt' hm, hindex, UInt64.toNat_ofNat_of_lt' hn] at hne
  exact hne rfl

end Shots

/-- **The shots that decide a run of `fuzz`.** -/
theorem fuzz_eq_ok {c : Circuit} {cases : List FuzzCase} {shots : ℕ} {n seed : UInt64} :
    fuzz c cases shots seed = some (.ok n) ↔ n = .ofNat (cases.length * shots) ∧
      ∀ i j case, j < shots → cases[i]? = some case →
        checkCase c case (shotSource seed (i * shots + j)) = some none := by
  rw [fuzz, fuzzCases_eq_ok, UInt64.zero_add]
  exact and_congr_right fun _ =>
    ⟨fun h i j case hj => h i j hj case, fun h i j hj case => h i j case hj⟩

/-- A count that is a `usize` has not wrapped. -/
theorem eq_ofNat_iff {n : UInt64} {k : ℕ} (h : k < usizeSize) : n = .ofNat k ↔ n.toNat = k := by
  rw [← UInt64.toNat_inj, UInt64.toNat_ofNat_of_lt' h]

/-- A circuit that passes on the streams passes every run. -/
theorem fuzz_of_streams {c : Circuit} {cases : List FuzzCase}
    (h : ∀ case ∈ cases, ∀ bits : List Bool, bits.length = askCount c.instructions →
      checkCase c case (FixedBits.new bits) = some none) (shots : ℕ) (seed : UInt64) :
    fuzz c cases shots seed = some (.ok (.ofNat (cases.length * shots))) := by
  refine fuzz_eq_ok.mpr ⟨rfl, fun i j case _ hcase => ?_⟩
  rw [checkCase_taken]
  exact h case (List.mem_of_getElem? hcase) _ (length_taken _ _)

/-- **`fuzz` exactly**, as long as the number of shots is a `usize`: it returns this number when all
    pass, and else the case of the first shot to fail with its failure; the first words of two shots
    differ; and a run over cases that pass on the streams of their circuit's length passes, whatever
    the seed. -/
theorem fuzz_exact (c : Circuit) (cases : List FuzzCase) (shots : ℕ) (seed : UInt64)
    (hfit : cases.length * shots < usizeSize) :
    (∀ n, fuzz c cases shots seed = some (.ok n) ↔ n.toNat = cases.length * shots ∧
      ∀ i j case, j < shots → cases[i]? = some case →
        checkCase c case (shotSource seed (i * shots + j)) = some none) ∧
    (∀ i failure, fuzz c cases shots seed = some (.error (i, failure)) ↔
      ∃ case j, cases[i]? = some case ∧ j < shots ∧
        checkCase c case (shotSource seed (i * shots + j)) = some (some failure) ∧
        ∀ i' j' case', j' < shots → i' * shots + j' < i * shots + j → cases[i']? = some case' →
          checkCase c case' (shotSource seed (i' * shots + j')) = some none) ∧
    (∀ m n, m < 2 ^ 64 → n < 2 ^ 64 → m ≠ n →
      (shotSource seed m).nextU64.1 ≠ (shotSource seed n).nextU64.1) ∧
    ((∀ case ∈ cases, ∀ bits : List Bool, bits.length = askCount c.instructions →
      checkCase c case (FixedBits.new bits) = some none) →
        fuzz c cases shots seed = some (.ok (.ofNat (cases.length * shots)))) := by
  refine ⟨fun n => fuzz_eq_ok.trans (and_congr_left' (eq_ofNat_iff hfit)), fun i failure => ?_, fun m n hm hn hne => shotSource_ne hm hn hne,
    fun h => fuzz_of_streams h shots seed⟩
  have herr := @fuzzCases_eq_error c shots failure cases 0 i (SplitMix64.new seed) 0
  rw [Nat.zero_add] at herr
  rw [fuzz, herr]
  refine exists_congr fun case => exists_congr fun j => and_congr_right fun _ =>
    and_congr_right fun _ => and_congr_right fun _ => ?_
  exact ⟨fun h i' j' case' hj' hlt => h i' j' hj' hlt case',
    fun h i' j' hj' hlt case' => h i' j' case' hj' hlt⟩

/-- Three shots on each of two cases, under any seed. -/
theorem fuzz_exact_copied :
    fuzz copiedCircuit [⟨[0], [0]⟩, ⟨[1], [1]⟩] 3 7 = some (.ok 6) := by
  refine (fuzz_exact copiedCircuit [⟨[0], [0]⟩, ⟨[1], [1]⟩] 3 7 (by decide)).2.2.2
    fun case hcase bits _ => ?_
  rw [List.mem_cons, List.mem_singleton] at hcase
  rcases hcase with rfl | rfl
  · exact passesAlways_copied [0] (Or.inl rfl) bits
  · exact passesAlways_copied [1] (Or.inr rfl) bits

end GroverTax.Kickmix
