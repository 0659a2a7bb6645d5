/-
  File:      GroverTax/Lib/Keccak.lean
  Subject:   SHAKE-256 as FIPS 202 defines it.

  * `theta`, `rho`, `pi`, `chi`, `iota` -- the step mappings on the state array `A[x, y, z]`, the
    indices modulo 5 and 64; `keccakF` -- 24 rounds on a string of 1600 bits;
  * `sponge` -- absorbing and squeezing at rate `r`; `pad101` -- the rule pad10*1;
  * `shake256` -- capacity 512, suffix 1111.

  `rho_walk` and `rho_zero` say what the walk of `rho` does to each lane.
-/
import GroverTax.Lib.Chunks
import Mathlib.Data.Fin.Basic
import Mathlib.Logic.Function.Iterate
import Mathlib.Data.Nat.Bitwise

namespace GroverTax.Lib.Keccak

/-! ## 1. The step mappings -/

abbrev StateArray := Fin 5 → Fin 5 → Fin 64 → Bool

/-- The parity of a column. -/
def parity (A : StateArray) (x : Fin 5) (z : Fin 64) : Bool :=
  A x 0 z ^^ A x 1 z ^^ A x 2 z ^^ A x 3 z ^^ A x 4 z

def theta (A : StateArray) : StateArray := fun x y z =>
  A x y z ^^ (parity A (x - 1) z ^^ parity A (x + 1) (z - 1))

/-- The walk `(x, y) := (y, 2x + 3y)` over the 24 lanes other than `(0, 0)`. -/
def rhoWalk (t : ℕ) : Fin 5 × Fin 5 := (fun p => (p.2, 2 * p.1 + 3 * p.2))^[t] (1, 0)

/-- Lane `t` of the walk is rotated by `(t + 1)(t + 2)/2` places. -/
def rho (A : StateArray) : StateArray := (List.range 24).foldl (fun A' t => fun x y z =>
  if (x, y) = rhoWalk t then A x y (z - Fin.ofNat 64 ((t + 1) * (t + 2) / 2)) else A' x y z) A

theorem rhoWalk_ne : ∀ t < 24, ∀ i < t, rhoWalk t ≠ rhoWalk i := by decide +kernel

theorem rhoWalk_ne_zero : ∀ t < 24, rhoWalk t ≠ (0, 0) := by decide +kernel

/-- Every lane but `(0, 0)` is on the walk, and the walk closes. -/
theorem rhoWalk_cover : ∀ x y : Fin 5, (x, y) = (0, 0) ∨
    ∃ i ∈ List.range 24, (x, y) = rhoWalk (i + 1) := by decide +kernel

/-- The loop of `rho`, after `n` steps. -/
theorem rho_fold (A : StateArray) (x y : Fin 5) (z : Fin 64) : ∀ n ≤ 24,
    ((∀ t < n, (x, y) ≠ rhoWalk t) → (List.range n).foldl (fun A' t => fun x y z =>
      if (x, y) = rhoWalk t then A x y (z - Fin.ofNat 64 ((t + 1) * (t + 2) / 2)) else A' x y z)
        A x y z = A x y z) ∧
    ∀ t < n, (x, y) = rhoWalk t → (List.range n).foldl (fun A' t => fun x y z =>
      if (x, y) = rhoWalk t then A x y (z - Fin.ofNat 64 ((t + 1) * (t + 2) / 2)) else A' x y z)
        A x y z = A x y (z - Fin.ofNat 64 ((t + 1) * (t + 2) / 2))
  | 0, _ => ⟨fun _ => rfl, fun t ht => absurd ht (Nat.not_lt_zero t)⟩
  | n + 1, hn => by
      obtain ⟨hrest, hmoved⟩ := rho_fold A x y z n (by omega)
      rw [List.range_succ, List.foldl_append, List.foldl_cons, List.foldl_nil]
      refine ⟨fun h => ?_, fun t ht hxy => ?_⟩
      · rw [if_neg (h n (Nat.lt_succ_self n)), hrest fun t ht => h t (Nat.lt_succ_of_lt ht)]
      · by_cases htn : t = n
        · rw [← htn, if_pos hxy]
        · have hlt : t < n := by omega
          have hne : (x, y) ≠ rhoWalk n := hxy ▸ (rhoWalk_ne n hn t hlt).symm
          rw [if_neg hne, hmoved t hlt hxy]

theorem rho_walk (A : StateArray) {x y : Fin 5} {t : ℕ} (ht : t < 24) (h : (x, y) = rhoWalk t)
    (z : Fin 64) : rho A x y z = A x y (z - Fin.ofNat 64 ((t + 1) * (t + 2) / 2)) :=
  (rho_fold A x y z 24 (le_refl 24)).2 t ht h

theorem rho_zero (A : StateArray) (z : Fin 64) : rho A 0 0 z = A 0 0 z :=
  (rho_fold A 0 0 z 24 (le_refl 24)).1 fun t ht => (rhoWalk_ne_zero t ht).symm

def pi (A : StateArray) : StateArray := fun x y z => A (x + 3 * y) x z

def chi (A : StateArray) : StateArray := fun x y z =>
  A x y z ^^ ((A (x + 1) y z ^^ true) && A (x + 2) y z)

/-- One step of the feedback shift register of `rc`. -/
def rcStep (R : List Bool) : List Bool :=
  ([0, 4, 5, 6].foldl (fun R' i => R'.set i (R'.getD i false ^^ R.getD 7 false)) (false :: R)).take 8

def rc (t : ℕ) : Bool :=
  (rcStep^[t % 255] [true, false, false, false, false, false, false, false]).getD 0 false

/-- The round constant: bit `2^j - 1` is `rc (j + 7 i)`. -/
def RC (i : ℕ) : List Bool := (List.range 7).foldl
  (fun R j => R.set (2 ^ j - 1) (rc (j + 7 * i))) (List.replicate 64 false)

def iota (i : ℕ) (A : StateArray) : StateArray := fun x y z =>
  if (x, y) = (0, 0) then A x y z ^^ (RC i).getD z false else A x y z

def round (A : StateArray) (i : ℕ) : StateArray := iota i (chi (pi (rho (theta A))))

/-! ## 2. The permutation -/

/-- `A[x, y, z] = S[64 (5y + x) + z]`. -/
def toArray (S : List Bool) : StateArray := fun x y z => S.getD (64 * (5 * y + x) + z) false

def toBits (A : StateArray) : List Bool := (List.range 1600).map fun i =>
  A (Fin.ofNat 5 (i / 64)) (Fin.ofNat 5 (i / 320)) (Fin.ofNat 64 i)

/-- **Keccak-f[1600].** -/
def keccakF (S : List Bool) : List Bool := toBits ((List.range 24).foldl round (toArray S))

/-! ## 3. The sponge -/

/-- **pad10*1** for a message of `m` bits at rate `x`. -/
def pad101 (x m : ℕ) : List Bool :=
  true :: List.replicate ((-(m : ℤ) - 2) % x).toNat false ++ [true]

section Sponge

variable (f : List Bool → List Bool) (b r : ℕ)

/-- `S ⊕ (P_i ‖ 0^c)`. -/
def addBlock (P S : List Bool) (i : ℕ) : List Bool :=
  List.zipWith xor S (chunk r P i ++ List.replicate (b - r) false)

/-- The blocks of `P`, added and permuted one by one. -/
def absorb (P : List Bool) : List Bool := (List.range (P.length / r)).foldl
  (fun S i => f (addBlock b r P S i)) (List.replicate b false)

/-- The first `d` bits of the blocks of `r` bits of `S`, `f S`, `f (f S)`, and so on. -/
def squeeze (S : List Bool) (d : ℕ) : List Bool :=
  (List.range d).map fun t => (f^[t / r] S).getD (t % r) false

def sponge (pad : ℕ → ℕ → List Bool) (N : List Bool) (d : ℕ) : List Bool :=
  squeeze f r (absorb f b r (N ++ pad r N.length)) d

end Sponge

/-- **SHAKE-256** of a bit string. -/
def shake256 (M : List Bool) (d : ℕ) : List Bool :=
  sponge keccakF 1600 (1600 - 512) pad101 (M ++ [true, true, true, true]) d

/-- The bits of a byte string, the lowest bit of a byte first. -/
def bytesToBits (bytes : List UInt8) : List Bool :=
  bytes.flatMap fun b => (List.range 8).map b.toNat.testBit

/-! ## 4. One block -/

section Block

variable {b r k i : ℕ} {P S : List Bool}

theorem length_addBlock (hS : S.length = b) (hr : r ≤ b) (hk : r * k + r ≤ P.length) :
    (addBlock b r P S k).length = b := by
  rw [addBlock, List.length_zipWith, List.length_append, length_chunk hk, List.length_replicate, hS]
  omega

/-- The first `r` bits take the block, the others stay. -/
theorem getD_addBlock (hS : S.length = b) (hr : r ≤ b) (hk : r * k + r ≤ P.length) (hi : i < b) :
    (addBlock b r P S k).getD i false =
      (S.getD i false ^^ (if i < r then P.getD (r * k + i) false else false)) := by
  have hchunk := length_chunk hk
  have hlen : (chunk r P k ++ List.replicate (b - r) false).length = b := by
    rw [List.length_append, hchunk, List.length_replicate]
    omega
  rw [List.getD_eq_getElem _ _ (by rwa [length_addBlock hS hr hk])]
  unfold addBlock
  rw [List.getElem_zipWith, ← List.getD_eq_getElem S false, ← List.getD_eq_getElem _ false]
  by_cases hir : i < r
  · rw [if_pos hir, List.getD_append _ _ _ _ (by rwa [hchunk]), getD_chunk hir]
  · rw [if_neg hir, List.getD_append_right _ _ _ _ (by omega), getD_replicate_self]

end Block

/-! ## 5. Bits of strings -/

section Bits

variable {A : StateArray} {i : ℕ}

@[simp] theorem length_toBits (A : StateArray) : (toBits A).length = 1600 := by simp [toBits]

theorem getD_toBits (h : i < 1600) : (toBits A).getD i false =
    A (Fin.ofNat 5 (i / 64)) (Fin.ofNat 5 (i / 320)) (Fin.ofNat 64 i) := by
  rw [toBits, List.getD_eq_getElem _ _ (by simpa using h), List.getElem_map, List.getElem_range]

/-- An array is read back from its string. -/
theorem toArray_toBits (A : StateArray) : toArray (toBits A) = A := by
  funext x y z
  have hx := x.isLt
  have hy := y.isLt
  have hz := z.isLt
  have e1 : Fin.ofNat 5 ((64 * (5 * (y : ℕ) + x) + z) / 64) = x := Fin.ext (by
    show (64 * (5 * (y : ℕ) + x) + z) / 64 % 5 = x
    omega)
  have e2 : Fin.ofNat 5 ((64 * (5 * (y : ℕ) + x) + z) / 320) = y := Fin.ext (by
    show (64 * (5 * (y : ℕ) + x) + z) / 320 % 5 = y
    omega)
  have e3 : Fin.ofNat 64 (64 * (5 * (y : ℕ) + x) + z) = z := Fin.ext (by
    show (64 * (5 * (y : ℕ) + x) + z) % 64 = z
    omega)
  rw [toArray, getD_toBits (by omega), e1, e2, e3]

theorem length_bytesToBits (bytes : List UInt8) : (bytesToBits bytes).length = 8 * bytes.length :=
  length_flatMap_const fun _ _ => by simp

theorem bytesToBits_append (a b : List UInt8) :
    bytesToBits (a ++ b) = bytesToBits a ++ bytesToBits b := List.flatMap_append

/-- Bit `i` of a byte string is bit `i % 8` of byte `i / 8`. -/
theorem getD_bytesToBits {bytes : List UInt8} (h : i < 8 * bytes.length) :
    (bytesToBits bytes).getD i false = (bytes.getD (i / 8) 0).toNat.testBit (i % 8) := by
  have hlt : i / 8 < bytes.length := by omega
  have hmod := Nat.mod_lt i (show 8 > 0 by decide)
  conv_lhs => rw [← Nat.div_add_mod i 8]
  rw [bytesToBits, getD_flatMap (fun _ _ => by simp) hlt hmod, List.getD_eq_getElem _ _ (by simpa),
    List.getElem_map, List.getElem_range, List.getD_eq_getElem _ _ hlt]
  rfl

theorem bytesToBits_zeros : ∀ n, bytesToBits (List.replicate n 0) = List.replicate (8 * n) false
  | 0 => rfl
  | n + 1 => by
      rw [List.replicate_succ', bytesToBits_append, bytesToBits_zeros n, Nat.mul_succ,
        ← List.replicate_append_replicate]
      rfl

end Bits

end GroverTax.Lib.Keccak
