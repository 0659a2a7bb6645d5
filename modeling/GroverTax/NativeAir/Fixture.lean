/-
  File:      GroverTax/NativeAir/Fixture.lean
  Subject:   The host's check of the fixture: `check_fixture_outputs` of
             benchmarks/stwo/iadd256/native-air/src/main.rs.

  * `checkFixtureOutputs_eq_ok` -- it accepts exactly the honest cases;
  * `fromHex_of_hexDecode` -- `hex::decode` reads less than `bytes.fromhex`, and the same;
    `hexDecode_hex` -- it reads what `bytes.hex` writes.
-/
import GroverTax.NativeAir.Honest
import GroverTax.Python.Fixture
import GroverTax.Lib.LittleEndian

namespace GroverTax.NativeAir

open GroverTax.Lib

/-! ## 1. The check -/

inductive OutputError where
  /-- decoding y_hex, or: expected at least 32 state bytes -/
  | stateHex (yHex : String)
  /-- fixture output mismatch at case {i} -/
  | mismatch (i : ℕ)
  deriving DecidableEq, Repr

/-- One round of the loop over the cases. -/
def checkFixtureOutput (repetitions : ℕ) (p : TestCase × ℕ) : Except OutputError Unit := do
  let expected := (p.1.r0In + p.1.r1In * repetitions) % 2 ^ 256
  let actual ← match lowRegisterFromStateHex p.1.yHex with
    | some v => Except.ok v
    | none => Except.error (.stateHex p.1.yHex)
  if expected ≠ actual then .error (.mismatch p.2) else .ok ()

def checkFixtureOutputs (cases : List TestCase) (repetitions : ℕ) : Except OutputError Unit :=
  cases.zipIdx.forM (checkFixtureOutput repetitions)

section Check

variable {k : ℕ}

theorem checkFixtureOutput_eq_ok (case : TestCase) (i : ℕ) :
    checkFixtureOutput k (case, i) = .ok () ↔ Honest k case := by
  unfold checkFixtureOutput Honest
  rw [Nat.mul_comm case.r1In k]
  cases lowRegisterFromStateHex case.yHex with
  | none => exact iff_of_false (fun h => by cases h) (fun h => by cases h)
  | some v =>
    rw [bind_eq_ok, Option.some.injEq]
    constructor
    · intro h'
      obtain ⟨_, hv, h⟩ := h'
      cases hv
      by_contra hne
      cases h.symm.trans (if_pos (Ne.symm hne))
    · rintro rfl
      exact ⟨_, rfl, if_neg (not_not.mpr rfl)⟩

/-- **The host accepts exactly the honest cases.** -/
theorem checkFixtureOutputs_eq_ok {cases : List TestCase} {u : Unit} :
    checkFixtureOutputs cases k = .ok u ↔ ∀ case ∈ cases, Honest k case :=
  forM_zipIdx_eq_ok checkFixtureOutput_eq_ok

end Check

/-! ## 2. The two readers of hexadecimal text -/

section Hex

variable {c : Char} {text : List Char} {bytes : List ℕ}

theorem hexDigit_eq (c : Char) : hexDigit c = Python.hexDigit c := rfl

theorem hexDigit_space (h : Python.isAsciiSpace c = true) : hexDigit c = none := by
  unfold Python.isAsciiSpace at h
  rw [decide_eq_true_eq] at h
  rcases h with rfl | rfl | rfl | rfl | rfl | rfl <;> rfl

/-- **What `hex::decode` reads, `bytes.fromhex` reads alike.** -/
theorem fromHex_of_hexDecode : ∀ {text : List Char} {bytes : List ℕ},
    hexDecode text = some bytes →
      ∃ data, Python.fromHex text = some data ∧ bytes = data.map UInt8.toNat
  | [], bytes, h => by
      cases h
      exact ⟨[], rfl, rfl⟩
  | [_], bytes, h => by cases h
  | c :: d :: rest, bytes, h => by
      simp only [hexDecode, Option.bind_eq_bind, Option.bind_eq_some_iff, Option.pure_def,
        Option.some.injEq] at h
      obtain ⟨hi, hc, lo, hd, tail, htail, rfl⟩ := h
      obtain ⟨data, hdata, rfl⟩ := fromHex_of_hexDecode htail
      have hspace : Python.isAsciiSpace c = false := by
        by_contra hs
        rw [hexDigit_space (Bool.eq_true_of_not_eq_false hs)] at hc
        cases hc
      have hlt : hi * 16 + lo < 256 := by
        have := hexDigit_lt hc
        have := hexDigit_lt hd
        omega
      have hval : (UInt8.ofNat (hi * 16 + lo)).toNat = 16 * hi + lo := by
        rw [UInt8.toNat_ofNat', Nat.mod_eq_of_lt hlt, Nat.mul_comm]
      refine ⟨UInt8.ofNat (hi * 16 + lo) :: data, ?_, by rw [List.map_cons, hval]⟩
      rw [hexDigit_eq] at hc hd
      rw [Python.fromHex, hspace, hc, hd, hdata]
      rfl

/-- What `bytes.hex` writes, `hex::decode` reads. -/
theorem hexDecode_hex : ∀ data : List UInt8,
    hexDecode (Python.hex data) = some (data.map UInt8.toNat)
  | [] => rfl
  | b :: data => by
      have hb := b.toNat_lt
      have htop := (Python.hexChar_spec (show b.toNat / 16 < 16 by omega)).1
      have hbot := (Python.hexChar_spec (show b.toNat % 16 < 16 by omega)).1
      have e : Python.hex (b :: data) =
          Python.hexChar (b.toNat / 16) :: Python.hexChar (b.toNat % 16) :: Python.hex data := rfl
      rw [e, hexDecode, hexDigit_eq, hexDigit_eq, htop, hbot, hexDecode_hex data, List.map_cons]
      simp only [Option.bind_eq_bind, Option.bind_some, Option.pure_def, Nat.div_add_mod]

theorem fromBytesLe_map : ∀ data : List UInt8, fromBytesLe (data.map UInt8.toNat) = leNat data
  | [] => rfl
  | b :: data => by rw [List.map_cons, fromBytesLe, leNat, fromBytesLe_map data]

/-- The low register of a state that both readers read. -/
theorem lowRegisterFromStateHex_eq {hex : String} {data : List UInt8}
    (h : hexDecode hex.toList = some (data.map UInt8.toNat)) (hlen : 32 ≤ data.length) :
    lowRegisterFromStateHex hex = some (leNat (data.take 32)) := by
  unfold lowRegisterFromStateHex
  rw [h, Option.bind_eq_bind, Option.bind_some, if_neg (by rw [List.length_map]; omega),
    ← List.map_take, fromBytesLe_map]

end Hex

end GroverTax.NativeAir
