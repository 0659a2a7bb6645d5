/-
  File:      GroverTax/Lib/Pratt.lean
  Subject:   Powers modulo a number, and primes certified by them.

  * `powMod` -- square and multiply from the highest bit of the exponent on; `powMod_eq` says what
    it computes;
  * `Lucas` -- one number with a primitive root and the prime factors of its predecessor;
    `prime_of_certified` -- in a list of such numbers, each resting on small primes and on the ones
    before it, every number is prime.
-/
import Mathlib.NumberTheory.LucasPrimality
import Mathlib.Algebra.BigOperators.Associated

namespace GroverTax.Lib

/-! ## 1. Powers -/

/-- `b ^ e % m` for an exponent of `bits` bits. -/
def powModBits (b m : ℕ) : ℕ → ℕ → ℕ
  | 0, _ => 1 % m
  | bits + 1, e =>
      let root := powModBits b m bits (e / 2)
      let square := root * root % m
      if e % 2 = 0 then square else square * b % m

/-- `b ^ e % m`. -/
def powMod (b e m : ℕ) : ℕ := powModBits b m (Nat.log2 e + 1) e

section Power

variable {b m : ℕ}

theorem powModBits_eq : ∀ {bits e : ℕ}, e < 2 ^ bits → powModBits b m bits e = b ^ e % m
  | 0, e, h => by
      obtain rfl : e = 0 := by simpa using h
      rw [powModBits, pow_zero]
  | bits + 1, e, h => by
      have hhalf : e / 2 < 2 ^ bits := by
        rw [pow_succ] at h
        omega
      have hsquare : b ^ (e / 2) % m * (b ^ (e / 2) % m) % m = b ^ (e / 2 * 2) % m := by
        rw [← Nat.mul_mod, pow_mul, sq]
      rw [powModBits, powModBits_eq hhalf, hsquare]
      split_ifs with heven
      · rw [Nat.div_mul_cancel (Nat.dvd_of_mod_eq_zero heven)]
      · rw [Nat.mod_mul_mod, ← pow_succ, show e / 2 * 2 + 1 = e by omega]

/-- **What square and multiply computes.** -/
theorem powMod_eq (b e m : ℕ) : powMod b e m = b ^ e % m :=
  powModBits_eq Nat.lt_log2_self

theorem powMod_eq_one_iff (hm : 1 < m) (e : ℕ) : powMod b e m = 1 ↔ (b : ZMod m) ^ e = 1 := by
  have hone : (1 : ZMod m) = ((1 : ℕ) : ZMod m) := Nat.cast_one.symm
  rw [powMod_eq, ← Nat.cast_pow, hone, ZMod.natCast_eq_natCast_iff', Nat.mod_eq_of_lt hm]

end Power

/-! ## 2. Certificates -/

/-- No divisor from `2` to `127`, and none above is needed. -/
def isSmallPrime (q : ℕ) : Bool :=
  decide (1 < q ∧ q < 128 * 128) && (List.range' 2 126).all fun d => decide (q < d * d ∨ q % d ≠ 0)

/-- A number, an element of order one below it, and its predecessor as a product. -/
structure Lucas where
  p : ℕ
  root : ℕ
  factors : List ℕ

/-- The test, `known` being the primes found so far. -/
def Lucas.check (known : List ℕ) (c : Lucas) : Bool :=
  decide (1 < c.p) && c.factors.all (fun q => isSmallPrime q || known.contains q) &&
  decide (c.factors.prod = c.p - 1) && decide (powMod c.root (c.p - 1) c.p = 1) &&
  c.factors.all fun q => decide (powMod c.root ((c.p - 1) / q) c.p ≠ 1)

/-- Every number passes the test, the ones before it being known. -/
def certified : List ℕ → List Lucas → Bool
  | _, [] => true
  | known, c :: cs => c.check known && certified (c.p :: known) cs

section Certificate

variable {q : ℕ}

theorem prime_of_isSmallPrime (h : isSmallPrime q = true) : q.Prime := by
  simp only [isSmallPrime, Bool.and_eq_true, decide_eq_true_eq, List.all_eq_true,
    List.mem_range'_1] at h
  obtain ⟨⟨h1, hlt⟩, hdiv⟩ := h
  refine Nat.prime_def_le_sqrt.mpr ⟨h1, fun d h2 hd hdvd => ?_⟩
  have hle : d * d ≤ q := Nat.le_sqrt.mp hd
  have hd128 : d < 128 := Nat.mul_self_lt_mul_self_iff.mp (hle.trans_lt hlt)
  rcases hdiv d ⟨h2, by omega⟩ with hq | hq
  · omega
  · exact hq (Nat.mod_eq_zero_of_dvd hdvd)

/-- **A number that passes is prime**: the root has the full order. -/
theorem prime_of_check {known : List ℕ} {c : Lucas} (hknown : ∀ q ∈ known, q.Prime)
    (h : c.check known = true) : c.p.Prime := by
  simp only [Lucas.check, Bool.and_eq_true, Bool.or_eq_true, decide_eq_true_eq, List.all_eq_true,
    List.contains_iff_mem] at h
  obtain ⟨⟨⟨⟨h1, hfactors⟩, hprod⟩, hroot⟩, horder⟩ := h
  have hprime : ∀ q ∈ c.factors, q.Prime := by
    intro q hq
    rcases hfactors q hq with hsmall | hmem
    · exact prime_of_isSmallPrime hsmall
    · exact hknown q hmem
  refine lucas_primality c.p (c.root : ZMod c.p) ((powMod_eq_one_iff h1 _).mp hroot) ?_
  intro q hq hdvd
  rw [← hprod] at hdvd
  obtain ⟨f, hf, hqf⟩ := (Prime.dvd_prod_iff hq.prime).mp hdvd
  obtain rfl : q = f := (Nat.prime_dvd_prime_iff_eq hq (hprime f hf)).mp hqf
  exact fun e => horder q hf ((powMod_eq_one_iff h1 _).mpr e)

theorem prime_of_certified_of_known : ∀ {cs : List Lucas} {known : List ℕ},
    (∀ q ∈ known, q.Prime) → certified known cs = true → ∀ c ∈ cs, c.p.Prime
  | [], _, _, _ => List.forall_mem_nil _
  | c :: cs, known, hknown, h => by
      rw [certified, Bool.and_eq_true] at h
      have hp := prime_of_check hknown h.1
      rw [List.forall_mem_cons]
      exact ⟨hp, prime_of_certified_of_known (List.forall_mem_cons.mpr ⟨hp, hknown⟩) h.2⟩

/-- **The numbers of a certificate are prime.** -/
theorem prime_of_certified {cs : List Lucas} (h : certified [] cs = true) : ∀ c ∈ cs, c.p.Prime :=
  prime_of_certified_of_known (List.forall_mem_nil _) h

end Certificate

end GroverTax.Lib
