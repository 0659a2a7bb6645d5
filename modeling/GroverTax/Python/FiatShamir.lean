/-
  File:      GroverTax/Python/FiatShamir.lean
  Subject:   The case derivation of src/python/grover_tax/fiat_shamir.py.

  `deriveCases_eq` says what is returned when the parameter is SHAKE-256.
-/
import GroverTax.Python.Xof

namespace GroverTax.Python

open GroverTax.Lib GroverTax.Kickmix

/-! ## 1. The cases -/

section Code

variable (digest : List UInt8 → ℕ → List UInt8)

/-- `for _ in range(num_samples)`. -/
def caseLoop (nbytes : ℤ) (mask : ℕ) :
    ℕ → XOF → List (ℕ × ℕ) → Except CaseError (List (ℕ × ℕ))
  | 0, _, cases => .ok cases
  | n + 1, xof, cases => do
      let (xBytes, xof) ← xof.read digest nbytes
      let (yBytes, xof) ← xof.read digest nbytes
      caseLoop nbytes mask n xof (cases ++ [(leNat xBytes &&& mask, leNat yBytes &&& mask)])

def deriveCases (circuitHash : List UInt8) (width numSamples : ℤ) :
    Except CaseError (List (ℕ × ℕ)) :=
  if width ≤ 0 then .error (.width width)
  else if numSamples ≤ 0 then .error (.numSamples numSamples)
  else
    let nbytes := (width + 8 - 1) / 8
    let mask := 1 <<< width.toNat - 1
    caseLoop digest nbytes mask numSamples.toNat { seed := circuitHash } []

end Code

/-! ## 2. What is returned -/

section Spec

variable {digest : List UInt8 → ℕ → List UInt8} {xof : XOF} {k j : ℕ}

/-- The buffer is a prefix of the stream of the seed. -/
def XOF.Valid (xof : XOF) : Prop := xof.buffer = shake256 xof.seed xof.buffer.length

/-- **A read returns the next chunk of the stream.** -/
theorem XOF.read_spec (hlib : ∀ seed n, digest seed n = shake256 seed n) (h : xof.Valid)
    (hoff : xof.offset = k * j) :
    ∃ xof', xof.read digest k = .ok (chunk k (shake256 xof.seed (k * j + k)) j, xof') ∧
      xof'.Valid ∧ xof'.seed = xof.seed ∧ xof'.offset = k * (j + 1) := by
  obtain rfl : digest = shake256 := funext fun seed => funext (hlib seed)
  obtain ⟨xof', hread, hvalid, hseed, hoff'⟩ := XOF.read_stream isXof_shake256 h k
  refine ⟨xof', ?_, hvalid, hseed, ?_⟩
  · have hlen : ((shake256 xof.seed (k * j + k)).drop (k * j)).length ≤ k := by
      rw [List.length_drop, length_shake256, Nat.add_sub_cancel_left]
    rw [hread, hoff, chunk, List.take_of_length_le hlen]
  · rw [hoff', hoff, Nat.mul_succ]

theorem caseLoop_eq (hlib : ∀ seed n, digest seed n = shake256 seed n) {width : ℕ}
    (hwidth : 0 < width) (circuitHash : List UInt8) : ∀ (n i : ℕ) (xof : XOF) (cases : List (ℕ × ℕ)),
    xof.Valid → xof.seed = circuitHash → xof.offset = (width + 7) / 8 * (2 * i) →
      caseLoop digest ((width + 7) / 8 : ℕ) (1 <<< width - 1) n xof cases =
        .ok (cases ++ (List.range' i n).map fun k =>
          (operand circuitHash width (2 * k), operand circuitHash width (2 * k + 1)))
  | 0, i, xof, cases, _, _, _ => by
      rw [caseLoop, List.range'_zero, List.map_nil, List.append_nil]
  | n + 1, i, xof, cases, hv, hs, ho => by
      obtain ⟨xof1, hr1, hv1, hs1, ho1⟩ := XOF.read_spec hlib hv ho
      obtain ⟨xof2, hr2, hv2, hs2, ho2⟩ := XOF.read_spec hlib hv1 ho1
      have hmask : ∀ j, leNat (chunk ((width + 7) / 8)
          (shake256 circuitHash ((width + 7) / 8 * j + (width + 7) / 8)) j) &&& (1 <<< width - 1) =
            operand circuitHash width j := by
        intro j
        rw [Nat.one_shiftLeft, Nat.and_two_pow_sub_one_eq_mod, operand]
      rw [hs1, hs] at hr2
      rw [hs] at hr1
      have ih := caseLoop_eq hlib hwidth circuitHash n (i + 1) xof2
        (cases ++ [(operand circuitHash width (2 * i), operand circuitHash width (2 * i + 1))]) hv2
        (hs2.trans (hs1.trans hs)) (ho2.trans (by ring))
      refine bind_eq_ok.mpr ⟨_, hr1, bind_eq_ok.mpr ⟨_, hr2, ?_⟩⟩
      dsimp only
      rw [hmask, hmask, ih, List.append_assoc, List.range'_succ, List.map_cons]
      rfl

/-- **What the derivation returns**: the operands of the stream, two by two. -/
theorem deriveCases_eq (hlib : ∀ seed n, digest seed n = shake256 seed n)
    (circuitHash : List UInt8) {width numSamples : ℕ} (hwidth : 0 < width) (hn : 0 < numSamples) :
    deriveCases digest circuitHash width numSamples = .ok ((List.range numSamples).map fun k =>
      (operand circuitHash width (2 * k), operand circuitHash width (2 * k + 1))) := by
  have hvalid : XOF.Valid { seed := circuitHash } :=
    (List.length_eq_zero_iff.mp (length_shake256 circuitHash 0)).symm
  unfold deriveCases
  rw [if_neg (by omega), if_neg (by omega)]
  dsimp only
  rw [Int.toNat_natCast, Int.toNat_natCast, show ((width : ℤ) + 8 - 1) / 8 = ((width + 7) / 8 : ℕ) by
    omega, caseLoop_eq hlib hwidth circuitHash numSamples 0 _ _ hvalid rfl rfl, List.nil_append,
    List.range_eq_range']

end Spec

end GroverTax.Python
