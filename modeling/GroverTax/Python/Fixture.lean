/-
  File:      GroverTax/Python/Fixture.lean
  Subject:   The oracle of a v0.3-iadd fixture: `_verify_iadd_fixture` of
             src/python/grover_tax/sim_reference.py.

  A fixture holds its byte strings as hexadecimal text, read by `bytes.fromhex`. A raised exception
  is an error value. `verifyIaddFixture_eq_ok` says when the oracle accepts.
-/
import GroverTax.Python.Hex
import GroverTax.Python.Serialise
import GroverTax.Python.SimReference

namespace GroverTax.Python

open GroverTax.Lib GroverTax.Gtv1

/-! ## 1. The oracle -/

structure IaddCase where
  xHex : List Char
  yHex : List Char
  deriving DecidableEq, Repr

/-- The fields the oracle reads; `repetitions` may be missing. -/
structure IaddFixture where
  circuitByteSerialisationHex : List Char
  repetitions : Option ℤ
  testCases : List IaddCase
  deriving DecidableEq, Repr

inductive FixtureError where
  /-- ValueError of `bytes.fromhex` -/
  | notHex (text : List Char)
  | serialise (e : SerialiseError)
  | sim (e : SimError)
  /-- CROSS_VALIDATION_FAIL: test case {i}: run(C^{repetitions}, x) = {y_got} != y = {y_expected} -/
  | crossValidationFail (i : ℕ) (repetitions : ℤ) (yGot yExpected : List UInt8)
  deriving DecidableEq, Repr

def fromHexE (text : List Char) : Except FixtureError (List UInt8) :=
  match fromHex text with
  | some bytes => .ok bytes
  | none => .error (.notHex text)

/-- `for _ in range(repetitions): y_got = run(circuit, y_got)`. -/
def runReps (circuit : List Gate) : ℕ → List UInt8 → Except SimError (List UInt8)
  | 0, yGot => .ok yGot
  | n + 1, yGot => do runReps circuit n (← run circuit yGot)

/-- One round of the loop over the cases. -/
def verifyCase (circuit : List Gate) (repetitions : ℤ) (p : IaddCase × ℕ) :
    Except FixtureError Unit := do
  let xBytes ← fromHexE p.1.xHex
  let yExpected ← fromHexE p.1.yHex
  let yGot ← (runReps circuit repetitions.toNat xBytes).mapError .sim
  if yGot ≠ yExpected then .error (.crossValidationFail p.2 repetitions yGot yExpected) else .ok ()

def verifyIaddFixture (fixture : IaddFixture) : Except FixtureError Unit := do
  let bytes ← fromHexE fixture.circuitByteSerialisationHex
  let circuit ← (deserialise bytes).mapError .serialise
  let repetitions := fixture.repetitions.getD 1
  fixture.testCases.zipIdx.forM (verifyCase circuit repetitions)

/-! ## 2. When it accepts -/

section Oracle

variable {circuit : List Gate} {bytes x y : List UInt8} {text : List Char} {u : Unit}

theorem mapError_eq_ok {E F A : Type} {x : Except E A} {f : E → F} {a : A} :
    x.mapError f = .ok a ↔ x = .ok a := by
  cases x with
  | error e => exact iff_of_false (fun h => by cases h) (fun h => by cases h)
  | ok b => exact ⟨fun h => congrArg _ (Except.ok.inj h), fun h => congrArg _ (Except.ok.inj h)⟩

theorem fromHexE_eq_ok : fromHexE text = .ok bytes ↔ fromHex text = some bytes := by
  unfold fromHexE
  cases fromHex text with
  | none => exact iff_of_false (fun h => by cases h) (fun h => by cases h)
  | some b => exact ⟨fun h => congrArg _ (Except.ok.inj h), fun h => congrArg _ (Option.some.inj h)⟩

/-- A run repeated completes on gates in range; without a repetition nothing is checked. -/
theorem runReps_eq_ok : ∀ {n : ℕ} {x y : List UInt8}, runReps circuit n x = .ok y ↔
    (n ≠ 0 → ∀ g ∈ circuit, g.InRange (8 * x.length)) ∧ y.length = x.length ∧
      wires y = (simulate circuit)^[n] (wires x)
  | 0, x, y => by
      rw [runReps]
      constructor
      · intro h
        cases h
        exact ⟨fun h => absurd rfl h, rfl, rfl⟩
      · intro h'
        obtain ⟨-, hlen, hw⟩ := h'
        rw [bytes_ext hlen hw]
  | n + 1, x, y => by
      rw [runReps, bind_eq_ok]
      simp only [run_ok_iff, runReps_eq_ok, Function.iterate_succ_apply]
      constructor
      · intro h'
        obtain ⟨z, ⟨hr, hlen, hw⟩, -, hlen', hw'⟩ := h'
        exact ⟨fun _ => hr, hlen'.trans hlen, by rw [hw', hw]⟩
      · intro h'
        obtain ⟨hr, hlen, hw⟩ := h'
        have hr' := hr n.succ_ne_zero
        obtain ⟨z, hzl, hzw⟩ := exists_simulate x hr'
        exact ⟨z, ⟨hr', hzl, hzw⟩, fun _ => by rwa [hzl], hlen.trans hzl.symm, by rw [hw, hzw]⟩

/-- **A circuit that adds once adds `n` times in `n` runs**: `state x` is the state that holds `x`, a
    number below `m`. -/
theorem runReps_add {state : ℕ → List UInt8} {m b : ℕ} (hm : 0 < m)
    (hadd : ∀ a < m, run circuit (state a) = .ok (state ((a + b) % m))) : ∀ (n : ℕ) {a : ℕ}, a < m →
      runReps circuit n (state a) = .ok (state ((a + n * b) % m))
  | 0, a, ha => by
      rw [Nat.zero_mul, Nat.add_zero, Nat.mod_eq_of_lt ha]
      rfl
  | n + 1, a, ha => by
      have ih := runReps_add hm hadd n (Nat.mod_lt (a + b) hm)
      have hmod : ((a + b) % m + n * b) % m = (a + (n + 1) * b) % m := by
        rw [Nat.mod_add_mod]
        exact congrArg (· % m) (by ring)
      rw [hmod] at ih
      rw [runReps, hadd a ha]
      exact ih

/-- A fixture's test cases as byte strings. -/
def IaddCase.Reads (c : IaddCase) (x y : List UInt8) : Prop :=
  fromHex c.xHex = some x ∧ fromHex c.yHex = some y

theorem verifyCase_eq_ok {reps : ℤ} (c : IaddCase) (i : ℕ) :
    verifyCase circuit reps (c, i) = .ok u ↔
      ∃ x y, c.Reads x y ∧ runReps circuit reps.toNat x = .ok y := by
  unfold verifyCase
  simp only [bind_eq_ok, fromHexE_eq_ok, mapError_eq_ok, IaddCase.Reads]
  constructor
  · intro h'
    obtain ⟨x, hx, y, hy, z, hz, h⟩ := h'
    by_cases e : z = y
    · exact ⟨x, y, ⟨hx, hy⟩, e ▸ hz⟩
    · rw [if_pos e] at h
      cases h
  · intro h'
    obtain ⟨x, y, ⟨hx, hy⟩, hz⟩ := h'
    exact ⟨x, hx, y, hy, y, hz, if_neg (not_not.mpr rfl)⟩

/-- **When the oracle accepts.** -/
theorem verifyIaddFixture_eq_ok {f : IaddFixture} : verifyIaddFixture f = .ok u ↔
    ∃ bytes circuit, fromHex f.circuitByteSerialisationHex = some bytes ∧
      deserialise bytes = .ok circuit ∧ ∀ c ∈ f.testCases, ∃ x y, c.Reads x y ∧
        runReps circuit (f.repetitions.getD 1).toNat x = .ok y := by
  unfold verifyIaddFixture
  simp only [bind_eq_ok, fromHexE_eq_ok, mapError_eq_ok, forM_zipIdx_eq_ok verifyCase_eq_ok]
  exact ⟨fun ⟨bytes, hb, circuit, hc, h⟩ => ⟨bytes, circuit, hb, hc, h⟩,
    fun ⟨bytes, circuit, hb, hc, h⟩ => ⟨bytes, hb, circuit, hc, h⟩⟩

end Oracle

end GroverTax.Python
