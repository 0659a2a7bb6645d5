/-
  File:      GroverTax/Parity/Cases.lean
  Subject:   The Rust and the Python case derivation are the same list.

  Both read the stream of SHAKE-256 over the circuit hash, two chunks a case: `derive_agree`, as long
  as Rust can allocate the cases.
-/
import GroverTax.Python.FiatShamir

namespace GroverTax.Parity

open GroverTax.Kickmix

/-- The list for fewer samples is a prefix. -/
theorem range_map_prefix {α : Type} (f : ℕ → α) {m n : ℕ} (h : n ≤ m) :
    (List.range n).map f <+: (List.range m).map f := by
  rw [← Nat.add_sub_cancel' h, List.range_add, List.map_append]
  exact List.prefix_append _ _

/-- **Both stacks derive the same cases.** `digest` is `hashlib.shake_256(seed).digest(n)`. -/
theorem derive_agree (digest : List UInt8 → ℕ → List UInt8)
    (hlib : ∀ seed n, digest seed n = shake256 seed n) (circuitHash : List UInt8)
    (width numSamples : ℕ) (hwidth : 1 ≤ width ∧ width ≤ 128) (hsamples : 1 ≤ numSamples)
    (hcap : numSamples * caseBytes ≤ isizeMax) :
    ∃ cases, deriveCases circuitHash width numSamples = some cases ∧
      Python.deriveCases digest circuitHash width numSamples = .ok cases ∧
      cases.length = numSamples ∧ (∀ p ∈ cases, p.1 < 2 ^ width ∧ p.2 < 2 ^ width) ∧
      ∀ m, numSamples ≤ m →
        (∀ more, deriveCases circuitHash width m = some more → cases <+: more) ∧
        ∃ more, Python.deriveCases digest circuitHash width m = .ok more ∧ cases <+: more := by
  have hrust := deriveCases_eq circuitHash hwidth.1 hwidth.2 hsamples hcap
  refine ⟨_, hrust, Python.deriveCases_eq hlib circuitHash hwidth.1 hsamples, by simp,
    deriveCases_lt hrust, fun m hm => ⟨fun more hmore => ?_, _,
      Python.deriveCases_eq hlib circuitHash hwidth.1 (by omega), range_map_prefix _ hm⟩⟩
  rw [deriveCases_eq circuitHash hwidth.1 hwidth.2 (by omega)
    (capacity_of_deriveCases hmore)] at hmore
  obtain rfl := Option.some.inj hmore
  exact range_map_prefix _ hm

/-- One sample of two 9-bit operands, two bytes each. -/
theorem derive_agree_sample : ∃ cases, deriveCases [] 9 1 = some cases ∧
    Python.deriveCases shake256 [] (9 : ℕ) (1 : ℕ) = .ok cases ∧
    cases.length = 1 ∧ (∀ p ∈ cases, p.1 < 2 ^ 9 ∧ p.2 < 2 ^ 9) ∧
    ∀ m, 1 ≤ m → (∀ more, deriveCases [] 9 m = some more → cases <+: more) ∧
      ∃ more, Python.deriveCases shake256 [] (9 : ℕ) m = .ok more ∧ cases <+: more :=
  derive_agree shake256 (fun _ _ => rfl) [] 9 1 (by decide) (by decide) (by decide)

/-- `2 ^ 62` one-bit samples: the buffer would have `2 ^ 63` bytes, a length of `usize`, and Rust
    panics where it allocates it. -/
theorem derive_capacity_panics : 2 ^ 62 * 2 * ((1 + 7) / 8) < usizeSize ∧
    deriveCases [] 1 (2 ^ 62) = none := by
  refine ⟨by decide, Option.eq_none_iff_forall_ne_some.mpr fun cases h => ?_⟩
  exact absurd (capacity_of_deriveCases h) (by decide)

end GroverTax.Parity
