/-
  File:      GroverTax/Python/Curve.lean
  Subject:   The group of the curve: what `PrivateKey(scalar).public_key` of the key library is, over
             Mathlib's group law.

  * `multiple` -- the coordinates of a multiple of the generator;
  * `multiple_spec` -- they are below the modulus, and satisfy the equation.
-/
import GroverTax.Python.Secp256k1
import Mathlib.AlgebraicGeometry.EllipticCurve.Affine.Point

namespace GroverTax.Python

instance : Fact SECP256K1_P.Prime := ⟨prime_SECP256K1_P⟩

/-- `y² = x³ + 7` over the field of the modulus. -/
def curve : WeierstrassCurve.Affine (ZMod SECP256K1_P) := ⟨0, 0, 0, 0, CURVE_B⟩

section Equation

variable {x y : ZMod SECP256K1_P}

/-- **The equation**, in the field and in the numbers below the modulus. -/
theorem isOnCurve_val : isOnCurve ⟨x.val, y.val⟩ = true ↔ curve.Equation x y := by
  have hnat : (y.val * y.val) % SECP256K1_P = (x.val ^ 3 + CURVE_B) % SECP256K1_P ↔
      y * y = x ^ 3 + CURVE_B := by
    rw [← ZMod.natCast_eq_natCast_iff']
    push_cast
    rw [ZMod.natCast_zmod_val, ZMod.natCast_zmod_val]
  rw [isOnCurve_iff, hnat, WeierstrassCurve.Affine.equation_iff]
  simp only [curve, zero_mul, add_zero, pow_two]

theorem two_ne_zero_field : (2 : ZMod SECP256K1_P) ≠ 0 := by
  intro h
  have hdvd := (ZMod.natCast_eq_zero_iff 2 SECP256K1_P).mp (by exact_mod_cast h)
  exact absurd (Nat.le_of_dvd Nat.two_pos hdvd) (by decide)

/-- **No point of the curve is singular**, none having `y = 0`. -/
theorem nonsingular_of_equation (h : curve.Equation x y) : curve.Nonsingular x y := by
  refine (WeierstrassCurve.Affine.nonsingular_iff ..).mpr ⟨h, .inr fun hy => ?_⟩
  have hpos := pos_of_root ((isOnCurve_iff _).mp (isOnCurve_val.mpr h))
  have hzero : y = 0 := by
    simp only [curve, zero_mul, sub_zero] at hy
    have htwo : 2 * y = 0 := by linear_combination hy
    exact (mul_eq_zero.mp htwo).resolve_left two_ne_zero_field
  rw [hzero] at hpos
  exact absurd hpos (by simp)

end Equation

theorem isOnCurve_generator : isOnCurve GENERATOR = true := by decide +kernel

theorem equation_generator : curve.Equation GENERATOR.x GENERATOR.y := by
  have hx : GENERATOR.x < SECP256K1_P := by decide
  have hy : GENERATOR.y < SECP256K1_P := by decide
  rw [← isOnCurve_val, ZMod.val_natCast_of_lt hx, ZMod.val_natCast_of_lt hy]
  exact isOnCurve_generator

/-- The generator, as a point of the group. -/
def generator : curve.Point := .some _ _ (nonsingular_of_equation equation_generator)

/-- `PrivateKey(scalar).public_key.point()`; the zero of the group has no coordinates. -/
noncomputable def multiple (scalar : ℕ) : Point :=
  match scalar • generator with
  | .zero => GENERATOR
  | .some x y _ => ⟨x.val, y.val⟩

/-- **A multiple of the generator** is a point of the curve. -/
theorem multiple_spec (scalar : ℕ) : (multiple scalar).x < SECP256K1_P ∧
    (multiple scalar).y < SECP256K1_P ∧ isOnCurve (multiple scalar) = true := by
  unfold multiple
  split
  · exact ⟨by decide, by decide, isOnCurve_generator⟩
  · rename_i x y h _
    exact ⟨ZMod.val_lt x, ZMod.val_lt y, isOnCurve_val.mpr h.1⟩

end GroverTax.Python
