/-
  File:      GroverTax/Lib/Kets.lean
  Subject:   Superpositions of wire states, and the operations that act on them ket by ket.

  An operation is linear, so it is given by what it does to a ket. `permute` and `turn` are the
  gates that keep the kets apart; `hadamard`, `project` and a flip make up the two measurements.

  * `measureX_ket` -- Hadamard, measure, reset: half the mass, and a sign where the wire and the
    outcome are both on;
  * `measureZ_ket` -- measure, reset: everything or nothing.
-/
import Mathlib.Analysis.Complex.Basic
import Mathlib.LinearAlgebra.Finsupp.LinearCombination
import Mathlib.Tactic

namespace GroverTax.Lib

noncomputable section

/-! ## 1. Kets -/

section Kets

variable {B : Type*}

/-- A superposition: finitely many kets, each with its amplitude. -/
abbrev Amplitudes (B : Type*) := B →₀ ℂ

def ket (x : B) : Amplitudes B := Finsupp.single x 1

/-- The operation that takes each ket `x` to `f x`. -/
def onKets (f : B → Amplitudes B) : Amplitudes B →ₗ[ℂ] Amplitudes B :=
  Finsupp.linearCombination ℂ f

@[simp] theorem onKets_ket (f : B → Amplitudes B) (x : B) : onKets f (ket x) = f x := by
  rw [onKets, ket, Finsupp.linearCombination_single, one_smul]

def sign (b : Bool) : ℂ := if b then -1 else 1

@[simp] theorem sign_false : sign false = 1 := rfl

@[simp] theorem sign_true : sign true = -1 := rfl

theorem sign_xor (a b : Bool) : sign (a ^^ b) = sign a * sign b := by
  cases a <;> cases b <;> simp

/-- Each ket goes to another one. -/
def permute (π : B → B) : Amplitudes B →ₗ[ℂ] Amplitudes B := onKets fun x => ket (π x)

/-- The kets where `f` is on turn their signs. -/
def turn (f : B → Bool) : Amplitudes B →ₗ[ℂ] Amplitudes B := onKets fun x => sign (f x) • ket x

@[simp] theorem permute_ket (π : B → B) (x : B) : permute π (ket x) = ket (π x) := onKets_ket _ _

@[simp] theorem turn_ket (f : B → Bool) (x : B) : turn f (ket x) = sign (f x) • ket x :=
  onKets_ket _ _

end Kets

/-! ## 2. Measurements -/

section Wires

variable {W : Type*} [DecidableEq W] (t : W) (b : Bool) (x : W → Bool)

/-- The amplitude of each half of an equal superposition. -/
def halfRoot : ℂ := ((Real.sqrt 2)⁻¹ : ℝ)

theorem normSq_halfRoot : Complex.normSq halfRoot = 1 / 2 := by
  rw [halfRoot, Complex.normSq_ofReal, ← mul_inv, Real.mul_self_sqrt (by norm_num)]
  norm_num

/-- `|0⟩` to `|0⟩ + |1⟩`, `|1⟩` to `|0⟩ - |1⟩`. -/
def hadamard : Amplitudes (W → Bool) →ₗ[ℂ] Amplitudes (W → Bool) :=
  onKets fun x => halfRoot •
    (ket (Function.update x t false) + sign (x t) • ket (Function.update x t true))

/-- The part of a superposition where wire `t` holds `b`. -/
def project : Amplitudes (W → Bool) →ₗ[ℂ] Amplitudes (W → Bool) :=
  onKets fun x => if x t = b then ket x else 0

/-- The wire is flipped where `f` is on. -/
def flipWhere (f : (W → Bool) → Bool) : Amplitudes (W → Bool) →ₗ[ℂ] Amplitudes (W → Bool) :=
  permute fun x => Function.update x t (x t ^^ f x)

/-- Measurement in the Z basis with outcome `b`, then reset. -/
def measureZ : Amplitudes (W → Bool) →ₗ[ℂ] Amplitudes (W → Bool) :=
  flipWhere t (fun _ => b) ∘ₗ project t b

/-- Measurement in the X basis with outcome `b`, then reset. -/
def measureX : Amplitudes (W → Bool) →ₗ[ℂ] Amplitudes (W → Bool) := measureZ t b ∘ₗ hadamard t

@[simp] theorem flipWhere_ket (f : (W → Bool) → Bool) :
    flipWhere t f (ket x) = ket (Function.update x t (x t ^^ f x)) := permute_ket _ _

theorem measureZ_ket : measureZ t b (ket x) =
    if x t = b then ket (Function.update x t false) else 0 := by
  rw [measureZ, LinearMap.comp_apply, project, onKets_ket]
  split_ifs with h
  · rw [flipWhere_ket, h, Bool.xor_self]
  · exact map_zero _

/-- **The outcome turns the sign where the wire is on**, and the wire is off afterwards. -/
theorem measureX_ket : measureX t b (ket x) =
    (halfRoot * sign (x t && b)) • ket (Function.update x t false) := by
  rw [measureX, LinearMap.comp_apply, hadamard, onKets_ket, map_smul, map_add, map_smul,
    measureZ_ket, measureZ_ket, Function.update_self, Function.update_self, Function.update_idem,
    Function.update_idem, mul_smul]
  cases b with
  | false => rw [if_pos rfl, if_neg (by decide), smul_zero, add_zero, Bool.and_false, sign_false,
      one_smul]
  | true => rw [if_neg (by decide), if_pos rfl, zero_add, Bool.and_true]

end Wires

end

end GroverTax.Lib
