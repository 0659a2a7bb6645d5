/-
  File:      GroverTax/Cairo/ModAdd.lean
  Subject:   The kernel of src/stwo-side/cairo/src/lib.cairo: `mod_add_p` and `apples_to_apples`.

  A `u256` is a natural number below `2 ^ 256` whose arithmetic is checked; the loop takes a bound
  on its turns.

  * `modAddP_eq_some` -- the addition is exact where the sum of the two operands is below `2 ^ 256`,
    and panics elsewhere;
  * `modSum_exact_iff` -- **the kernel is exact if and only if no sum on the way is too large.**
-/
import GroverTax.Cairo.Commit
import GroverTax.Lib.Loop

namespace GroverTax.Cairo

open GroverTax.Lib

/-! ## 1. The source -/

/-- `secp256k1_p`. -/
def secp256k1P : ℕ :=
  U256.value ⟨0xFFFFFFFFFFFFFFFFFFFFFFFEFFFFFC2F, 0xFFFFFFFFFFFFFFFFFFFFFFFFFFFFFFFF⟩

def modAddP (a b p : ℕ) : Option ℕ := do
  let sum ← checkedAdd 256 a b
  if sum ≥ p then checkedSub sum p else some sum

/-- One turn of the loop of `apples_to_apples`: `sigma` and `i`. -/
def kernelTurn (st : ℕ × ℕ) : Option (ℕ × ℕ) := do
  let step ← checkedAdd 64 st.2 1
  let sigma ← modAddP st.1 step secp256k1P
  return (sigma, ← checkedAdd 64 st.2 1)

def applesToApples (fuel : ℕ) (circuitBytes : List UInt8) (n : ℕ) : Option (U256 × ℕ) := do
  let digest ← commitBlake2s circuitBytes
  let commitment ← digestToU256Be digest
  let (_, sigma) ← checkedDivRem commitment.value secp256k1P
  let (sigma, _) ← loopUntil (fun st => st.2 == n) kernelTurn fuel (sigma, 0)
  return (commitment, sigma)

/-! ## 2. One addition -/

section Addition

variable {a b r : ℕ}

theorem secp256k1P_eq : secp256k1P = 2 ^ 256 - 2 ^ 32 - 977 := by decide

/-- **An addition** is exact where it does not overflow. -/
theorem modAddP_eq_some (ha : a < secp256k1P) (hb : b < 2 ^ 64) :
    modAddP a b secp256k1P = some r ↔ a + b < 2 ^ 256 ∧ r = (a + b) % secp256k1P := by
  have hp := secp256k1P_eq
  have hsum := Nat.add_lt_add ha hb
  simp only [modAddP, Option.bind_eq_bind, Option.bind_eq_some_iff, checkedAdd_eq_some]
  constructor
  · intro h
    obtain ⟨sum, ⟨hlt, rfl⟩, h⟩ := h
    refine ⟨hlt, ?_⟩
    split_ifs at h with hge
    · rw [checkedSub_of_le hge] at h
      rw [Nat.mod_eq_sub_mod hge, Nat.mod_eq_of_lt (by omega)]
      exact (Option.some.inj h).symm
    · rw [Nat.mod_eq_of_lt (Nat.not_le.mp hge)]
      exact (Option.some.inj h).symm
  · intro h
    obtain ⟨hlt, rfl⟩ := h
    refine ⟨a + b, ⟨hlt, rfl⟩, ?_⟩
    split_ifs with hge
    · rw [checkedSub_of_le hge, Nat.mod_eq_sub_mod hge, Nat.mod_eq_of_lt (by omega)]
    · rw [Nat.mod_eq_of_lt (Nat.not_le.mp hge)]

/-- The exact addition, and when it is what the code computes. -/
theorem modAddP_exact_iff (ha : a < secp256k1P) (hb : b < 2 ^ 64) :
    modAddP a b secp256k1P = some ((a + b) % secp256k1P) ↔ a + b < 2 ^ 256 := by
  rw [modAddP_eq_some ha hb]
  exact and_iff_left rfl

/-- **Two operands in range whose sum is `2 ^ 256`.** -/
theorem modAddP_overflows : ¬ ∀ a b, a < secp256k1P → b < 2 ^ 64 →
    modAddP a b secp256k1P = some ((a + b) % secp256k1P) := by
  intro h
  have hover : modAddP (secp256k1P - 1) (2 ^ 32 + 978) secp256k1P = none := by decide
  exact absurd (hover.symm.trans (h (secp256k1P - 1) (2 ^ 32 + 978) (by decide) (by decide)))
    (by decide)

end Addition

/-! ## 3. The loop -/

section Kernel

variable {c n i : ℕ}

/-- `sigma` after `i` turns from the commitment `c`. -/
def sigmaAt (c i : ℕ) : ℕ := (c + i * (i + 1) / 2) % secp256k1P

/-- The addition of turn `i` fits in a `u256`. -/
def Fits (c i : ℕ) : Prop := sigmaAt c i + (i + 1) < 2 ^ 256

theorem sigmaAt_lt (c i : ℕ) : sigmaAt c i < secp256k1P := Nat.mod_lt _ (by decide)

theorem sigmaAt_succ (c i : ℕ) : (sigmaAt c i + (i + 1)) % secp256k1P = sigmaAt c (i + 1) := by
  have htri : (i + 1) * (i + 1 + 1) / 2 = i * (i + 1) / 2 + (i + 1) := by
    rw [show (i + 1) * (i + 1 + 1) = i * (i + 1) + (i + 1) * 2 by ring,
      Nat.add_mul_div_right _ _ (by decide)]
  rw [sigmaAt, sigmaAt, Nat.mod_add_mod, htri, Nat.add_assoc]

theorem kernelTurn_eq (sigma : ℕ) (h : i + 1 < 2 ^ 64) :
    kernelTurn (sigma, i) = (modAddP sigma (i + 1) secp256k1P).map fun s => (s, i + 1) := by
  simp only [kernelTurn, checkedAdd_of_lt h, Option.bind_eq_bind, Option.bind_some, Option.pure_def]
  cases modAddP sigma (i + 1) secp256k1P <;> rfl

/-- **The first `i` additions.** -/
theorem run_modAddP : ∀ {i r : ℕ}, i < 2 ^ 64 →
    (run (fun sigma j => modAddP sigma (j + 1) secp256k1P) (sigmaAt c 0) (List.range i) = some r ↔
      (∀ j < i, Fits c j) ∧ r = sigmaAt c i)
  | 0, r, _ => by
      rw [List.range_zero, run_nil, Option.some_inj, eq_comm]
      exact (and_iff_right fun j hj => absurd hj (Nat.not_lt_zero j)).symm
  | i + 1, r, h => by
      rw [List.range_succ, run_append, Option.bind_eq_some_iff]
      simp only [run_modAddP (Nat.lt_of_succ_lt h), run_cons, run_nil, Option.bind_fun_some]
      have hstep := @modAddP_eq_some (sigmaAt c i) (i + 1) r (sigmaAt_lt c i) h
      rw [sigmaAt_succ] at hstep
      constructor
      · intro hrun
        obtain ⟨_, ⟨hfits, rfl⟩, hlast⟩ := hrun
        obtain ⟨hlt, hr⟩ := hstep.mp hlast
        refine ⟨fun j hj => ?_, hr⟩
        rcases Nat.lt_succ_iff_lt_or_eq.mp hj with hj | rfl
        · exact hfits j hj
        · exact hlt
      · intro hall
        obtain ⟨hfits, hr⟩ := hall
        exact ⟨_, ⟨fun j hj => hfits j (Nat.lt_succ_of_lt hj), rfl⟩,
          hstep.mpr ⟨hfits i i.lt_succ_self, hr⟩⟩

/-- The loop is the run of the additions. -/
theorem loopUntil_kernelTurn (hn : n < 2 ^ 64) {fuel : ℕ} (hf : n < fuel) (sigma : ℕ) :
    loopUntil (fun st => st.2 == n) kernelTurn fuel (sigma, 0) =
      (run (fun sigma j => modAddP sigma (j + 1) secp256k1P) sigma (List.range n)).map
        fun s => (s, n) := by
  rw [List.range_eq_range', loopUntil_counter (fun s i hi => kernelTurn_eq s (by omega))
    (Nat.zero_le n) hf, Nat.sub_zero]

/-- Whatever happens later, `sigma` is reduced at the head of the loop. -/
theorem visits_lt {st : ℕ × ℕ} {sigma : ℕ} (hs : sigma < secp256k1P)
    (h : Visits (fun st => st.2 == n) kernelTurn (sigma, 0) st) : st.1 < secp256k1P := by
  refine h.inv (I := fun st => st.1 < secp256k1P) hs fun s s' hlt _ hb => ?_
  simp only [kernelTurn, Option.bind_eq_bind, Option.bind_eq_some_iff, checkedAdd_eq_some] at hb
  obtain ⟨_, ⟨hstep, rfl⟩, sigma', hadd, _, -, hs'⟩ := hb
  obtain ⟨-, rfl⟩ := (modAddP_eq_some hlt hstep).mp hadd
  cases hs'
  exact Nat.mod_lt _ (by decide)

/-- What the kernel is to do: the sum of `1` to `n` on top of the commitment, and every `sigma` on
    the way reduced. -/
def SumsExactly (circuitBytes : List UInt8) (n : ℕ) : Prop :=
  let c := (commitmentOf circuitBytes).value
  (∀ fuel > n, applesToApples fuel circuitBytes n =
    some (commitmentOf circuitBytes, (c + n * (n + 1) / 2) % secp256k1P)) ∧
  ∀ st, Visits (fun st => st.2 == n) kernelTurn (c % secp256k1P, 0) st → st.1 < secp256k1P

theorem applesToApples_eq {bytes : List UInt8} (hlen : bytes.length < 2 ^ 32) (hn : n < 2 ^ 64)
    {fuel : ℕ} (hf : n < fuel) : applesToApples fuel bytes n =
      (run (fun sigma j => modAddP sigma (j + 1) secp256k1P)
        (sigmaAt (commitmentOf bytes).value 0) (List.range n)).map
          fun s => (commitmentOf bytes, s) := by
  have hdiv : checkedDivRem (commitmentOf bytes).value secp256k1P =
      some ((commitmentOf bytes).value / secp256k1P, sigmaAt (commitmentOf bytes).value 0) :=
    if_neg (by decide)
  rw [applesToApples, commitBlake2s_eq hlen, Option.bind_eq_bind, Option.bind_some,
    digestToU256Be_eq, Option.bind_eq_bind, Option.bind_some, hdiv]
  simp only [Option.bind_eq_bind, Option.bind_some, loopUntil_kernelTurn hn hf, Option.pure_def]
  cases run (fun sigma j => modAddP sigma (j + 1) secp256k1P)
    (sigmaAt (commitmentOf bytes).value 0) (List.range n) <;> rfl

/-- **The kernel is exact** if and only if no sum on the way leaves the `u256` range. -/
theorem sumsExactly_iff {bytes : List UInt8} (hlen : bytes.length < 2 ^ 32) (hn : n < 2 ^ 64) :
    SumsExactly bytes n ↔ ∀ i < n, Fits (commitmentOf bytes).value i := by
  have hrun := @run_modAddP (commitmentOf bytes).value n
    (sigmaAt (commitmentOf bytes).value n) hn
  constructor
  · intro h
    have hres := h.1 (n + 1) n.lt_succ_self
    rw [applesToApples_eq hlen hn n.lt_succ_self, Option.map_eq_some_iff] at hres
    obtain ⟨r, hr, e⟩ := hres
    obtain rfl : r = sigmaAt (commitmentOf bytes).value n := (Prod.mk.inj e).2
    exact (hrun.mp hr).1
  · intro h
    refine ⟨fun fuel hf => ?_, fun st hv => visits_lt (Nat.mod_lt _ (by decide)) hv⟩
    rw [applesToApples_eq hlen hn hf, hrun.mpr ⟨h, rfl⟩]
    rfl

/-- Up to the distance of the prime from `2 ^ 256` nothing can overflow. -/
theorem sumsExactly_of_le {bytes : List UInt8} (hlen : bytes.length < 2 ^ 32)
    (hn : n ≤ 2 ^ 32 + 977) : SumsExactly bytes n := by
  refine (sumsExactly_iff hlen (by omega)).mpr fun i hi => ?_
  have hlt := sigmaAt_lt (commitmentOf bytes).value i
  have hp := secp256k1P_eq
  unfold Fits
  omega

/-- **The modular sum kernel**, one addition and all of them. -/
theorem modSum_exact_iff {a b n : ℕ} {bytes : List UInt8} (ha : a < secp256k1P) (hb : b < 2 ^ 64)
    (hlen : bytes.length < 2 ^ 32) (hn : n < 2 ^ 64) :
    (modAddP a b secp256k1P = some ((a + b) % secp256k1P) ↔ a + b < 2 ^ 256) ∧
      (SumsExactly bytes n ↔ ∀ i < n, Fits (commitmentOf bytes).value i) :=
  ⟨modAddP_exact_iff ha hb, sumsExactly_iff hlen hn⟩

/-- The theorem at the largest operands that fit, and at a run of three additions. -/
theorem modSum_exact_sample :
    (modAddP (secp256k1P - 1) (2 ^ 32 + 977) secp256k1P =
      some ((secp256k1P - 1 + (2 ^ 32 + 977)) % secp256k1P)) ∧
    ∀ i < 3, Fits (commitmentOf []).value i := by
  obtain ⟨hadd, hloop⟩ := @modSum_exact_iff (secp256k1P - 1) (2 ^ 32 + 977) 3 [] (by decide)
    (by decide) (by decide) (by decide)
  exact ⟨hadd.mpr (by decide), hloop.mp (sumsExactly_of_le (by decide) (by decide))⟩

end Kernel

end GroverTax.Cairo
