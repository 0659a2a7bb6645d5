/-
  File:      GroverTax/Gtv1/Iadd.lean
  Subject:   The gates of the benchmark's adder, iadd8.kmx, iadd64.kmx and iadd256.kmx under
             src/third_party/sp1/docs/example_data: one family, on wires `0 .. 2n`.

  The top wire of the upper register, `t`, carries. All wires but the lowest two and the top of the
  lower register take `t` first and give it back last, so that `t` cancels wherever the carry is
  used.
  * `toppedGates` -- the wires that take `t`, and give it back;
  * `forwardGates` -- from the bottom up, each bit takes its carry and hands it on;
  * `backwardGates` -- from the top down, each bit becomes its sum and the carry is taken back.

  `simulate_iadd` says that it adds.
-/
import GroverTax.Gtv1.Adder

namespace GroverTax.Gtv1

open GroverTax.Lib

/-! ## 1. The circuit -/

/-- `CX t a_i` for `1 ≤ i < n`. -/
def toppedLow (n : ℕ) : List Gate := (List.range' 1 (n - 1)).map fun i => cnot (n + (n - 1)) i

/-- `CX t b_i` for `1 ≤ i < n - 1`. -/
def toppedHigh (n : ℕ) : List Gate :=
  (List.range' 1 (n - 2)).map fun i => cnot (n + (n - 1)) (n + i)

/-- For `i = 1, …, k`. -/
def forwardGates (n k : ℕ) : List Gate :=
  (List.range' 1 k).flatMap fun i =>
    [cnot (n + (n - 1)) (n + i), cnot (n + (n - 1)) i, toffoli i (n + i) (n + (n - 1))]

/-- The turn, at bit `i = n - 2`. -/
def turnGates (n : ℕ) : List Gate :=
  let i := n - 2
  [cnot (n + (n - 1)) (n + i), cnot (n + (n - 1)) i, cnot (n + (n - 1)) (n - 1),
    toffoli i (n + i) (n - 1), cnot (n + (n - 1)) (n + i), cnot (n + i) i]

/-- For `i = k, …, 1`. -/
def backwardGates (n : ℕ) : ℕ → List Gate
  | 0 => []
  | k + 1 => toffoli (k + 1) (n + (k + 1)) (n + (n - 1)) :: cnot (n + (n - 1)) (n + (k + 1)) ::
      cnot (n + (k + 1)) (k + 1) :: backwardGates n k

/-- **The adder of the benchmark** on `n` bits, three or more. -/
def iadd (n : ℕ) : List Gate :=
  cnot (n + (n - 1)) (n - 1) :: toppedLow n ++ toppedHigh n ++
    toffoli 0 n (n + (n - 1)) :: forwardGates n (n - 3) ++ turnGates n ++ backwardGates n (n - 3) ++
    [toffoli 0 n (n + (n - 1)), cnot n 0] ++ toppedHigh n ++ toppedLow n ++
    [cnot (n + (n - 1)) (n - 1)]

/-! ## 2. The loops over the top wire -/

section Loops

variable {n k i : ℕ} {x y : ℕ → Bool}

theorem toffoli_low (hk : k < n) (hi : i < n) : (toffoli k (n + k) i).apply (join n x y) =
    join n (Function.update x i (x i ^^ (x k && y k))) y := by
  rw [apply_toffoli, join_low hi, join_low hk, join_high, update_join_low hi]

/-- The upper wires of a range below the top take it. -/
theorem simulate_topped_high : ∀ (k m : ℕ) (y : ℕ → Bool), m + k < n →
    simulate ((List.range' m k).map fun i => cnot (n + (n - 1)) (n + i)) (join n x y) =
      join n x (fun j => if m ≤ j ∧ j < m + k then y j ^^ y (n - 1) else y j)
  | 0, m, y, _ => by
      refine congrArg (join n x) (funext fun j => ?_)
      rw [if_neg (by omega)]
  | k + 1, m, y, h => by
      rw [List.range'_succ, List.map_cons, simulate_cons, cnot_high,
        simulate_topped_high k (m + 1) _ (by omega)]
      refine congrArg (join n x) (funext fun j => ?_)
      rw [Function.update_of_ne (show n - 1 ≠ m by omega)]
      by_cases hj : j = m
      · rw [hj, if_neg (by omega), Function.update_self, if_pos (by omega)]
      · rw [Function.update_of_ne hj]
        exact if_congr (by omega) rfl rfl

end Loops

/-! ## 3. The states between the loops -/

section Sum

variable {n : ℕ} (a b : BitVec n)

/-- The carry into bit `i`. -/
def carryIn (i : ℕ) : Bool := BitVec.carry i a b false

/-- A register whose inner wires have taken the top one. -/
def topped (v : BitVec n) (i : ℕ) : Bool :=
  if 1 ≤ i ∧ i < n - 1 then v.getLsbD i ^^ b.getLsbD (n - 1) else v.getLsbD i

/-- The lower register when the carries up to bit `k` are in, -/
def lowAt (k i : ℕ) : Bool :=
  if i ≤ k then a.getLsbD i ^^ carryIn a b i else topped b a i

/-- and when the sums down to bit `k + 1` are. -/
def sumAt (k i : ℕ) : Bool :=
  if i ≤ k then a.getLsbD i ^^ carryIn a b i else topped b (a + b) i

/-- The upper register, both times. -/
def highAt (k j : ℕ) : Bool :=
  if j = n - 1 then b.getLsbD (n - 1) ^^ carryIn a b (k + 1)
  else if j ≤ k then b.getLsbD j ^^ carryIn a b j
  else topped b b j

variable {a b}

theorem carryIn_succ (i : ℕ) : carryIn a b (i + 1) = (a.getLsbD i && b.getLsbD i ^^
    (a.getLsbD i ^^ b.getLsbD i) && carryIn a b i) := by
  unfold carryIn
  rw [BitVec.carry_succ]
  cases a.getLsbD i <;> cases b.getLsbD i <;> cases BitVec.carry i a b false <;> rfl

theorem highAt_top (k : ℕ) : highAt a b k (n - 1) = (b.getLsbD (n - 1) ^^ carryIn a b (k + 1)) :=
  if_pos rfl

theorem lowAt_next {k : ℕ} (h : k + 1 < n - 1) :
    lowAt a b k (k + 1) = (a.getLsbD (k + 1) ^^ b.getLsbD (n - 1)) := by
  rw [lowAt, if_neg (by omega), topped, if_pos (by omega)]

theorem highAt_next {k : ℕ} (h : k + 1 < n - 1) :
    highAt a b k (k + 1) = (b.getLsbD (k + 1) ^^ b.getLsbD (n - 1)) := by
  rw [highAt, if_neg (by omega), if_neg (by omega), topped, if_pos (by omega)]

/-- Under the top wire `t` cancels, and the carry stays. -/
theorem takes_low {k : ℕ} (h : k + 1 < n - 1) :
    (lowAt a b k (k + 1) ^^ highAt a b k (n - 1)) =
      (a.getLsbD (k + 1) ^^ carryIn a b (k + 1)) := by
  rw [lowAt_next h, highAt_top]
  cases a.getLsbD (k + 1) <;> cases b.getLsbD (n - 1) <;> cases carryIn a b (k + 1) <;> rfl

theorem takes_high {k : ℕ} (h : k + 1 < n - 1) :
    (highAt a b k (k + 1) ^^ highAt a b k (n - 1)) =
      (b.getLsbD (k + 1) ^^ carryIn a b (k + 1)) := by
  rw [highAt_next h, highAt_top]
  cases b.getLsbD (k + 1) <;> cases b.getLsbD (n - 1) <;> cases carryIn a b (k + 1) <;> rfl

/-- Only bit `k + 1` tells one state from the next. -/
theorem update_lowAt {k : ℕ} : Function.update (lowAt a b k) (k + 1)
    (a.getLsbD (k + 1) ^^ carryIn a b (k + 1)) = lowAt a b (k + 1) := by
  funext i
  by_cases hi : i = k + 1
  · rw [hi, Function.update_self, lowAt, if_pos (Nat.le_refl _)]
  · rw [Function.update_of_ne hi]
    exact if_congr (by omega) rfl rfl

theorem update_highAt {k : ℕ} (h : k + 1 < n - 1) :
    Function.update (Function.update (highAt a b k) (k + 1) (b.getLsbD (k + 1) ^^
      carryIn a b (k + 1))) (n - 1) (b.getLsbD (n - 1) ^^ carryIn a b (k + 2)) =
    highAt a b (k + 1) := by
  funext j
  by_cases hj : j = n - 1
  · rw [hj, Function.update_self, highAt_top]
  · rw [Function.update_of_ne hj]
    by_cases hk : j = k + 1
    · rw [hk, Function.update_self, highAt, if_neg (by omega), if_pos (Nat.le_refl _)]
    · rw [Function.update_of_ne hk, highAt, highAt, if_neg hj, if_neg hj]
      exact if_congr (by omega) rfl rfl

/-- **One turn of the loop upwards**: the bit takes its carry, and the top wire the next one. -/
theorem simulate_forward_step {k : ℕ} (h : k + 1 < n - 1) :
    simulate [cnot (n + (n - 1)) (n + (k + 1)), cnot (n + (n - 1)) (k + 1),
      toffoli (k + 1) (n + (k + 1)) (n + (n - 1))] (join n (lowAt a b k) (highAt a b k)) =
    join n (lowAt a b (k + 1)) (highAt a b (k + 1)) := by
  have hne : n - 1 ≠ k + 1 := by omega
  rw [simulate_cons, cnot_high, simulate_cons, cnot_low (by omega), simulate_cons,
    toffoli_high (by omega), Function.update_self, Function.update_self,
    Function.update_of_ne hne, takes_high h, takes_low h, update_lowAt, ← update_highAt h, highAt_top,
    carryIn_succ (k + 1)]
  refine congrArg (fun v => join n _ (Function.update _ (n - 1) v)) ?_
  cases a.getLsbD (k + 1) <;> cases b.getLsbD (k + 1) <;> cases carryIn a b (k + 1) <;>
    cases b.getLsbD (n - 1) <;> rfl

theorem simulate_forwardGates : ∀ (k : ℕ), k < n - 1 →
    simulate (forwardGates n k) (join n (lowAt a b 0) (highAt a b 0)) =
      join n (lowAt a b k) (highAt a b k)
  | 0, _ => rfl
  | k + 1, h => by
      have e : forwardGates n (k + 1) = forwardGates n k ++ [cnot (n + (n - 1)) (n + (k + 1)),
          cnot (n + (n - 1)) (k + 1), toffoli (k + 1) (n + (k + 1)) (n + (n - 1))] := by
        rw [forwardGates, List.range'_1_concat, List.flatMap_append, List.flatMap_singleton,
          Nat.add_comm 1 k]
        rfl
      rw [e, simulate_append, simulate_forwardGates k (by omega), simulate_forward_step h]

theorem sum_bit {i : ℕ} (h : i < n) :
    (a + b).getLsbD i = (a.getLsbD i ^^ (b.getLsbD i ^^ carryIn a b i)) := BitVec.getLsbD_add h a b

/-- On the way back the carry cancels, and `t` stays. -/
theorem gives_top (k : ℕ) : ((b.getLsbD k ^^ carryIn a b k) ^^ (b.getLsbD (n - 1) ^^
    carryIn a b k)) = (b.getLsbD k ^^ b.getLsbD (n - 1)) := by
  cases b.getLsbD k <;> cases carryIn a b k <;> cases b.getLsbD (n - 1) <;> rfl

theorem sums_low {k : ℕ} (h : k + 1 < n - 1) : ((a.getLsbD (k + 1) ^^ carryIn a b (k + 1)) ^^
    (b.getLsbD (k + 1) ^^ b.getLsbD (n - 1))) =
      ((a + b).getLsbD (k + 1) ^^ b.getLsbD (n - 1)) := by
  rw [sum_bit (by omega)]
  cases a.getLsbD (k + 1) <;> cases b.getLsbD (k + 1) <;> cases carryIn a b (k + 1) <;>
    cases b.getLsbD (n - 1) <;> rfl

theorem update_sumAt {k : ℕ} (h : k + 1 < n - 1) : Function.update (sumAt a b (k + 1)) (k + 1)
    ((a + b).getLsbD (k + 1) ^^ b.getLsbD (n - 1)) = sumAt a b k := by
  funext i
  by_cases hi : i = k + 1
  · rw [hi, Function.update_self, sumAt, if_neg (by omega), topped, if_pos (by omega)]
  · rw [Function.update_of_ne hi]
    exact if_congr (by omega) rfl rfl

theorem update_highAt_back {k : ℕ} (h : k + 1 < n - 1) :
    Function.update (Function.update (highAt a b (k + 1)) (n - 1)
      (b.getLsbD (n - 1) ^^ carryIn a b (k + 1))) (k + 1)
        (b.getLsbD (k + 1) ^^ b.getLsbD (n - 1)) = highAt a b k := by
  funext j
  by_cases hk : j = k + 1
  · rw [hk, Function.update_self, highAt_next h]
  · rw [Function.update_of_ne hk]
    by_cases hj : j = n - 1
    · rw [hj, Function.update_self, highAt_top]
    · rw [Function.update_of_ne hj, highAt, highAt, if_neg hj, if_neg hj]
      exact if_congr (by omega) rfl rfl

/-- **One turn of the loop downwards**: the top wire takes its carry back, the bit its sum. -/
theorem simulate_backward_step {k : ℕ} (h : k + 1 < n - 1) :
    simulate [toffoli (k + 1) (n + (k + 1)) (n + (n - 1)), cnot (n + (n - 1)) (n + (k + 1)),
      cnot (n + (k + 1)) (k + 1)] (join n (sumAt a b (k + 1)) (highAt a b (k + 1))) =
    join n (sumAt a b k) (highAt a b k) := by
  have hlow : sumAt a b (k + 1) (k + 1) = (a.getLsbD (k + 1) ^^ carryIn a b (k + 1)) :=
    if_pos (Nat.le_refl _)
  have hhigh : highAt a b (k + 1) (k + 1) = (b.getLsbD (k + 1) ^^ carryIn a b (k + 1)) := by
    rw [highAt, if_neg (by omega), if_pos (Nat.le_refl _)]
  have htop : (highAt a b (k + 1) (n - 1) ^^ (sumAt a b (k + 1) (k + 1) &&
      highAt a b (k + 1) (k + 1))) = (b.getLsbD (n - 1) ^^ carryIn a b (k + 1)) := by
    rw [highAt_top, hlow, hhigh, carryIn_succ (k + 1)]
    cases a.getLsbD (k + 1) <;> cases b.getLsbD (k + 1) <;> cases carryIn a b (k + 1) <;>
      cases b.getLsbD (n - 1) <;> rfl
  have hne : k + 1 ≠ n - 1 := by omega
  rw [simulate_cons, toffoli_high (by omega), htop, simulate_cons, cnot_high,
    Function.update_of_ne hne, Function.update_self, hhigh, gives_top, simulate_cons,
    cnot_low (by omega), Function.update_self, hlow, sums_low h, update_sumAt h, update_highAt_back h]
  rfl

theorem simulate_backwardGates : ∀ (k : ℕ), k < n - 1 →
    simulate (backwardGates n k) (join n (sumAt a b k) (highAt a b k)) =
      join n (sumAt a b 0) (highAt a b 0)
  | 0, _ => rfl
  | k + 1, h => by
      have e : backwardGates n (k + 1) = [toffoli (k + 1) (n + (k + 1)) (n + (n - 1)),
          cnot (n + (n - 1)) (n + (k + 1)), cnot (n + (k + 1)) (k + 1)] ++ backwardGates n k := rfl
      rw [e, simulate_append, simulate_backward_step h, simulate_backwardGates k (by omega)]

/-- **The turn**: the top of the lower register takes its sum, and the bit below it too. -/
theorem simulate_turnGates (hn : 3 ≤ n) :
    simulate (turnGates n) (join n (lowAt a b (n - 3)) (highAt a b (n - 3))) =
      join n (sumAt a b (n - 3)) (highAt a b (n - 3)) := by
  obtain ⟨k, hk⟩ : ∃ k, k + 2 = n - 1 := ⟨n - 3, by omega⟩
  have h : k + 1 < n - 1 := by omega
  have hne : n - 1 ≠ k + 1 := by omega
  have htop : topped b a (n - 1) = a.getLsbD (n - 1) := by rw [topped, if_neg (by omega)]
  have hsum : ((a.getLsbD (n - 1) ^^ (b.getLsbD (n - 1) ^^ carryIn a b (k + 1))) ^^
      ((a.getLsbD (k + 1) ^^ carryIn a b (k + 1)) && (b.getLsbD (k + 1) ^^ carryIn a b (k + 1)))) =
        (a + b).getLsbD (n - 1) := by
    rw [sum_bit (by omega), ← hk, carryIn_succ (k + 1)]
    cases a.getLsbD (k + 1) <;> cases b.getLsbD (k + 1) <;> cases carryIn a b (k + 1) <;>
      cases a.getLsbD (k + 2) <;> cases b.getLsbD (k + 2) <;> rfl
  rw [show n - 3 = k by omega, turnGates, show n - 2 = k + 1 by omega]
  rw [simulate_cons, cnot_high, takes_high h, simulate_cons, cnot_low (by omega),
    Function.update_of_ne hne, takes_low h, simulate_cons, cnot_low (by omega),
    Function.update_of_ne hne, Function.update_of_ne hne, lowAt, if_neg (by omega), htop,
    highAt_top, simulate_cons, toffoli_low (by omega) (by omega), Function.update_self,
    Function.update_of_ne hne.symm, Function.update_self, Function.update_self, hsum,
    Function.update_idem]
  -- the upper bit goes back
  rw [simulate_cons, cnot_high, Function.update_self, Function.update_of_ne hne, highAt_top,
    gives_top, Function.update_idem, ← highAt_next h, Function.update_eq_self, simulate_cons,
    cnot_low (by omega), Function.update_of_ne hne.symm, Function.update_self, highAt_next h,
    sums_low h]
  refine congrArg (fun x => join n x (highAt a b k)) (funext fun i => ?_)
  by_cases hi : i = k + 1
  · rw [hi, Function.update_self, sumAt, if_neg (by omega), topped, if_pos (by omega)]
  · rw [Function.update_of_ne hi]
    by_cases hi' : i = n - 1
    · rw [hi', Function.update_self, sumAt, if_neg (by omega), topped, if_neg (by omega)]
    · rw [Function.update_of_ne hi', Function.update_of_ne hi, lowAt, sumAt]
      split_ifs
      · rfl
      · -- beyond the register
        rw [topped, topped, if_neg (by omega), if_neg (by omega), BitVec.getLsbD_of_ge _ _ (by omega),
          BitVec.getLsbD_of_ge _ _ (by omega)]

/-! ## 4. The sum -/

theorem simulate_toppedHigh (x : ℕ → Bool) (hn : 2 ≤ n) (y : ℕ → Bool) :
    simulate (toppedHigh n) (join n x y) =
      join n x (fun j => if 1 ≤ j ∧ j < n - 1 then y j ^^ y (n - 1) else y j) := by
  rw [toppedHigh, simulate_topped_high (n - 2) 1 y (by omega)]
  exact congrArg (join n x) (funext fun j => if_congr (by omega) rfl rfl)

theorem simulate_toppedLow (y : ℕ → Bool) (hn : 1 ≤ n) (x : ℕ → Bool) :
    simulate (toppedLow n) (join n x y) =
      join n (fun i => if 1 ≤ i ∧ i < n then x i ^^ y (n - 1) else x i) y := by
  rw [toppedLow, simulate_copyGates (fun _ => n - 1) (n - 1) 1 x (by omega)]
  exact congrArg (fun x => join n x y) (funext fun i => if_congr (by omega) rfl rfl)

theorem topped_top (v : BitVec n) : topped b v (n - 1) = v.getLsbD (n - 1) := by
  rw [topped, if_neg (by omega)]

/-- The top of the lower register takes `t` twice. -/
theorem simulate_topped (v : BitVec n) (hn : 3 ≤ n) :
    simulate (cnot (n + (n - 1)) (n - 1) :: toppedLow n ++ toppedHigh n)
      (join n v.getLsbD b.getLsbD) = join n (topped b v) (topped b b) := by
  rw [List.cons_append, simulate_cons, cnot_low (by omega), simulate_append,
    simulate_toppedLow _ (by omega), simulate_toppedHigh _ (by omega)]
  refine congrArg (fun x => join n x (topped b b)) (funext fun i => ?_)
  by_cases hi : i = n - 1
  · rw [hi, if_pos (by omega), Function.update_self, Bool.xor_assoc, Bool.xor_self, Bool.xor_false,
      topped_top]
  · rw [Function.update_of_ne hi]
    exact if_congr (by omega) rfl rfl

theorem simulate_untopped (v : BitVec n) (hn : 3 ≤ n) :
    simulate (toppedHigh n ++ toppedLow n ++ [cnot (n + (n - 1)) (n - 1)])
      (join n (topped b v) (topped b b)) = join n v.getLsbD b.getLsbD := by
  have hhigh : (fun j => if 1 ≤ j ∧ j < n - 1 then topped b b j ^^ topped b b (n - 1)
      else topped b b j) = b.getLsbD := by
    funext j
    rw [topped_top]
    unfold topped
    split_ifs
    · rw [Bool.xor_assoc, Bool.xor_self, Bool.xor_false]
    · rfl
  rw [simulate_append, simulate_append, simulate_toppedHigh _ (by omega), hhigh,
    simulate_toppedLow _ (by omega), simulate_cons, cnot_low (by omega)]
  refine congrArg (fun x => join n x b.getLsbD) (funext fun i => ?_)
  by_cases hi : i = n - 1
  · rw [hi, Function.update_self, if_pos (by omega), topped_top, Bool.xor_assoc, Bool.xor_self,
      Bool.xor_false]
  · rw [Function.update_of_ne hi]
    unfold topped
    by_cases h1 : 1 ≤ i ∧ i < n - 1
    · rw [if_pos (by omega), if_pos h1, Bool.xor_assoc, Bool.xor_self, Bool.xor_false]
    · rw [if_neg (by omega), if_neg h1]

theorem topped_zero (v : BitVec n) : topped b v 0 = v.getLsbD 0 := by rw [topped, if_neg (by omega)]

theorem carryIn_one : carryIn a b 1 = (a.getLsbD 0 && b.getLsbD 0) := by
  rw [carryIn_succ 0, carryIn, BitVec.carry_zero, Bool.and_false, Bool.xor_false]

theorem highAt_zero (j : ℕ) : highAt a b 0 j =
    if j = n - 1 then b.getLsbD (n - 1) ^^ (a.getLsbD 0 && b.getLsbD 0) else topped b b j := by
  rw [highAt, carryIn_one]
  refine if_congr Iff.rfl rfl ?_
  split_ifs with hj
  · obtain rfl : j = 0 := by omega
    rw [carryIn, BitVec.carry_zero, Bool.xor_false, topped_zero]
  · rfl

theorem lowAt_zero : lowAt a b 0 = topped b a := by
  funext i
  unfold lowAt
  split_ifs with hi
  · obtain rfl : i = 0 := by omega
    rw [carryIn, BitVec.carry_zero, Bool.xor_false, topped_zero]
  · rfl

/-- The lowest bits hand on the first carry, -/
theorem simulate_first (hn : 3 ≤ n) : (toffoli 0 n (n + (n - 1))).apply
    (join n (topped b a) (topped b b)) = join n (lowAt a b 0) (highAt a b 0) := by
  refine (@toffoli_high n (n - 1) 0 0 (topped b a) (topped b b) (by omega)).trans ?_
  rw [topped_top, topped_zero, topped_zero, lowAt_zero]
  refine congrArg (join n _) (funext fun j => ?_)
  rw [highAt_zero, Function.update_apply]

/-- and take it back; the lowest sum has no carry. -/
theorem simulate_last (hn : 3 ≤ n) : simulate [toffoli 0 n (n + (n - 1)), cnot n 0]
    (join n (sumAt a b 0) (highAt a b 0)) = join n (topped b (a + b)) (topped b b) := by
  have hlow : sumAt a b 0 0 = a.getLsbD 0 := by
    rw [sumAt, if_pos (Nat.le_refl 0), carryIn, BitVec.carry_zero, Bool.xor_false]
  have hhigh : highAt a b 0 0 = b.getLsbD 0 := by
    rw [highAt_zero, if_neg (by omega), topped_zero]
  have htaken : (toffoli 0 n (n + (n - 1))).apply (join n (sumAt a b 0) (highAt a b 0)) =
      join n (sumAt a b 0) (topped b b) := by
    refine (@toffoli_high n (n - 1) 0 0 (sumAt a b 0) (highAt a b 0) (by omega)).trans ?_
    rw [hlow, hhigh, highAt_zero, if_pos rfl, Bool.xor_assoc, Bool.xor_self, Bool.xor_false]
    refine congrArg (join n _) (funext fun j => ?_)
    rw [Function.update_apply, highAt_zero]
    split_ifs with hj
    · rw [hj, topped_top]
    · rfl
  rw [simulate_cons, htaken]
  refine (@cnot_low n 0 0 (sumAt a b 0) (topped b b) (by omega)).trans ?_
  refine congrArg (fun x => join n x (topped b b)) (funext fun i => ?_)
  rw [hlow, topped_zero, Function.update_apply]
  split_ifs with hi
  · rw [hi, topped_zero, sum_bit (by omega), carryIn, BitVec.carry_zero, Bool.xor_false]
  · rw [sumAt, if_neg (by omega)]

/-- **The adder of the benchmark adds.** -/
theorem simulate_iadd (hn : 3 ≤ n) (a b : BitVec n) :
    simulate (iadd n) (join n a.getLsbD b.getLsbD) = join n (a + b).getLsbD b.getLsbD := by
  have e : iadd n = (cnot (n + (n - 1)) (n - 1) :: toppedLow n ++ toppedHigh n) ++
      (toffoli 0 n (n + (n - 1)) :: (forwardGates n (n - 3) ++ (turnGates n ++
        (backwardGates n (n - 3) ++ ([toffoli 0 n (n + (n - 1)), cnot n 0] ++
          (toppedHigh n ++ toppedLow n ++ [cnot (n + (n - 1)) (n - 1)])))))) := by
    simp only [iadd, List.append_assoc, List.cons_append, List.nil_append]
  rw [e, simulate_append, simulate_topped a hn, simulate_cons, simulate_first hn, simulate_append,
    simulate_forwardGates _ (by omega), simulate_append, simulate_turnGates hn, simulate_append,
    simulate_backwardGates _ (by omega), simulate_append, simulate_last hn,
    simulate_untopped _ hn]

end Sum

/-! ## 5. Its gates -/

section Fits

variable {n m : ℕ} {g : Gate}

/-- A plain gate that is not NOP. -/
structure Gate.Live (g : Gate) (m : ℕ) : Prop where
  plain : g.Plain m
  ne_nop : g.opcode ≠ OP_NOP

theorem live_cnot {c t : ℕ} (hc : c < m) (ht : t < m) : (cnot c t).Live m :=
  ⟨plain_cnot hc ht, show OP_CNOT ≠ OP_NOP by decide⟩

theorem live_toffoli {a b t : ℕ} (ha : a < m) (hb : b < m) (ht : t < m) :
    (toffoli a b t).Live m :=
  ⟨plain_toffoli ha hb ht, show OP_TOFFOLI ≠ OP_NOP by decide⟩

theorem live_backwardGates (hn : 3 ≤ n) : ∀ {k : ℕ}, k < n - 1 → g ∈ backwardGates n k →
    g.Live (2 * n)
  | 0, _, h => absurd h List.not_mem_nil
  | k + 1, hk, h => by
      rcases List.mem_cons.mp h with rfl | h
      · exact live_toffoli (by omega) (by omega) (by omega)
      rcases List.mem_cons.mp h with rfl | h
      · exact live_cnot (by omega) (by omega)
      rcases List.mem_cons.mp h with rfl | h
      · exact live_cnot (by omega) (by omega)
      · exact live_backwardGates hn (by omega) h

theorem live_topped (hn : 3 ≤ n) (h : g ∈ toppedLow n ∨ g ∈ toppedHigh n) : g.Live (2 * n) := by
  rcases h with h | h
  · obtain ⟨i, hi, rfl⟩ := List.mem_map.mp h
    have := List.mem_range'_1.mp hi
    exact live_cnot (by omega) (by omega)
  · obtain ⟨i, hi, rfl⟩ := List.mem_map.mp h
    have := List.mem_range'_1.mp hi
    exact live_cnot (by omega) (by omega)

theorem live_forwardGates (hn : 3 ≤ n) (h : g ∈ forwardGates n (n - 3)) : g.Live (2 * n) := by
  obtain ⟨i, hi, h⟩ := List.mem_flatMap.mp h
  have := List.mem_range'_1.mp hi
  simp only [List.mem_cons, List.not_mem_nil, or_false] at h
  rcases h with rfl | rfl | rfl
  · exact live_cnot (by omega) (by omega)
  · exact live_cnot (by omega) (by omega)
  · exact live_toffoli (by omega) (by omega) (by omega)

theorem live_turnGates (hn : 3 ≤ n) (h : g ∈ turnGates n) : g.Live (2 * n) := by
  simp only [turnGates, List.mem_cons, List.not_mem_nil, or_false] at h
  rcases h with rfl | rfl | rfl | rfl | rfl | rfl
  · exact live_cnot (by omega) (by omega)
  · exact live_cnot (by omega) (by omega)
  · exact live_cnot (by omega) (by omega)
  · exact live_toffoli (by omega) (by omega) (by omega)
  · exact live_cnot (by omega) (by omega)
  · exact live_cnot (by omega) (by omega)

theorem live_iadd (hn : 3 ≤ n) (h : g ∈ iadd n) : g.Live (2 * n) := by
  simp only [iadd, List.mem_append, List.mem_cons, List.not_mem_nil, or_false] at h
  rcases h with ((((((((rfl | h) | h) | rfl | h) | h) | h) | rfl | rfl) | h) | h) | rfl
  · exact live_cnot (by omega) (by omega)
  · exact live_topped hn (Or.inl h)
  · exact live_topped hn (Or.inr h)
  · exact live_toffoli (by omega) (by omega) (by omega)
  · exact live_forwardGates hn h
  · exact live_turnGates hn h
  · exact live_backwardGates hn (by omega) h
  · exact live_toffoli (by omega) (by omega) (by omega)
  · exact live_cnot (by omega) (by omega)
  · exact live_topped hn (Or.inr h)
  · exact live_topped hn (Or.inl h)
  · exact live_cnot (by omega) (by omega)

theorem length_backwardGates : ∀ k, (backwardGates n k).length = 3 * k
  | 0 => rfl
  | k + 1 => congrArg (· + 3) (length_backwardGates k)

/-- The counts of the pin: 627 gates on 64 bits, 125 of them Toffoli. -/
theorem length_iadd (hn : 3 ≤ n) : (iadd n).length = 10 * n - 13 := by
  simp [iadd, toppedLow, toppedHigh, forwardGates, turnGates, length_backwardGates,
    List.length_flatMap]
  omega

/-- How many Toffoli gates there are. -/
def toffolis (gs : List Gate) : ℕ := gs.countP (·.opcode = OP_TOFFOLI)

theorem toffolis_append (gs gs' : List Gate) : toffolis (gs ++ gs') = toffolis gs + toffolis gs' :=
  List.countP_append

@[simp] theorem toffolis_cnot (c t : ℕ) (gs : List Gate) : toffolis (cnot c t :: gs) = toffolis gs :=
  List.countP_cons_of_neg (by simp [cnot, OP_CNOT, OP_TOFFOLI])

@[simp] theorem toffolis_toffoli (a b t : ℕ) (gs : List Gate) :
    toffolis (toffoli a b t :: gs) = toffolis gs + 1 :=
  List.countP_cons_of_pos (by simp [toffoli])

theorem toffolis_map_cnot (f : ℕ → ℕ × ℕ) (l : List ℕ) :
    toffolis (l.map fun i => cnot (f i).1 (f i).2) = 0 := by
  induction l with
  | nil => rfl
  | cons i l ih => rw [List.map_cons, toffolis_cnot, ih]

theorem toffolis_forwardGates (n : ℕ) : ∀ l : List ℕ, toffolis (l.flatMap fun i =>
    [cnot (n + (n - 1)) (n + i), cnot (n + (n - 1)) i, toffoli i (n + i) (n + (n - 1))]) = l.length
  | [] => rfl
  | i :: l => by
      rw [List.flatMap_cons, toffolis_append, toffolis_forwardGates n l, toffolis_cnot,
        toffolis_cnot, toffolis_toffoli, List.length_cons, Nat.add_comm]
      rfl

theorem toffolis_backwardGates : ∀ k, toffolis (backwardGates n k) = k
  | 0 => rfl
  | k + 1 => by
      rw [backwardGates, toffolis_toffoli, toffolis_cnot, toffolis_cnot, toffolis_backwardGates k]

/-- One Toffoli gate for each carry, and one to take it back. -/
theorem toffolis_iadd (hn : 3 ≤ n) : toffolis (iadd n) = 2 * n - 3 := by
  have hlow : toffolis (toppedLow n) = 0 := toffolis_map_cnot (fun i => (n + (n - 1), i)) _
  have hhigh : toffolis (toppedHigh n) = 0 := toffolis_map_cnot (fun i => (n + (n - 1), n + i)) _
  have hforward : toffolis (forwardGates n (n - 3)) = n - 3 :=
    (toffolis_forwardGates n _).trans (List.length_range' ..)
  have hnil : toffolis [] = 0 := rfl
  simp only [iadd, turnGates, List.cons_append, toffolis_cnot, toffolis_append, toffolis_toffoli,
    hlow, hhigh, hforward, toffolis_backwardGates, hnil]
  omega

end Fits

end GroverTax.Gtv1
