/-
  File:      GroverTax/Gtv1/Adder.lean
  Subject:   A circuit that meets the specification of the iadd fixtures: on wires `0 .. 2n` it adds
             the upper register to the lower one, modulo `2 ^ n`, without a spare wire.

  The carries are computed into the upper register and taken back out again:
  * `copyGates` -- each lower bit takes the upper one;
  * `spreadGates`, undone by `simulate_reverse_spreadGates` -- each upper bit takes the one below it;
  * `rippleGates` -- from the bottom up, each upper bit takes its carry;
  * `unrippleGates` -- from the top down, each carry is used and removed.

  `simulate_adder` says that it adds; `wires_registers` is the same state in bytes.
-/
import GroverTax.Gtv1.Bytes
import GroverTax.Gtv1.Format
import GroverTax.Lib.LittleEndian
import Mathlib.Tactic

namespace GroverTax.Gtv1

open GroverTax.Lib

/-! ## 1. The circuit -/

def cnot (c t : ℕ) : Gate := ⟨OP_CNOT, t, c, NO_CTRL⟩
def toffoli (a b t : ℕ) : Gate := ⟨OP_TOFFOLI, t, a, b⟩

def copyGates (n m : ℕ) : List Gate := (List.range' m (n - m)).map fun i => cnot (n + i) i

/-- Upper bit `i + 1` takes upper bit `i`, for `i = k, …, 1`. -/
def spreadGates (n : ℕ) : ℕ → List Gate
  | 0 => []
  | k + 1 => cnot (n + (k + 1)) (n + (k + 2)) :: spreadGates n k

def rippleGates (n k : ℕ) : List Gate :=
  (List.range k).map fun i => toffoli i (n + i) (n + (i + 1))

/-- For `i = k, …, 1`. -/
def unrippleGates (n : ℕ) : ℕ → List Gate
  | 0 => []
  | k + 1 => cnot (n + (k + 1)) (k + 1) :: toffoli k (n + k) (n + (k + 1)) :: unrippleGates n k

/-- **The adder** on `n` bits. -/
def adder (n : ℕ) : List Gate :=
  copyGates n 1 ++ spreadGates n (n - 2) ++ rippleGates n (n - 1) ++ unrippleGates n (n - 1) ++
    (spreadGates n (n - 2)).reverse ++ copyGates n 0

/-! ## 2. Two registers -/

/-- The state that holds `x` on the wires below `n` and `y` above them. -/
def join (n : ℕ) (x y : ℕ → Bool) (i : ℕ) : Bool := if i < n then x i else y (i - n)

section Steps

variable {n i j k : ℕ} {x y : ℕ → Bool}

theorem join_low (h : i < n) : join n x y i = x i := if_pos h

theorem join_high (i : ℕ) : join n x y (n + i) = y i := by
  rw [join, if_neg (by omega), Nat.add_sub_cancel_left]

theorem update_join_low (h : i < n) (v : Bool) :
    Function.update (join n x y) i v = join n (Function.update x i v) y := by
  funext j
  by_cases hj : j = i
  · rw [hj, Function.update_self, join_low h, Function.update_self]
  · rw [Function.update_of_ne hj]
    unfold join
    rw [Function.update_of_ne hj]

theorem update_join_high (i : ℕ) (v : Bool) :
    Function.update (join n x y) (n + i) v = join n x (Function.update y i v) := by
  funext j
  by_cases hj : j = n + i
  · rw [hj, Function.update_self, join_high, Function.update_self]
  · rw [Function.update_of_ne hj]
    unfold join
    split_ifs with h
    · rfl
    · rw [Function.update_of_ne (by omega)]

theorem apply_cnot (c t : ℕ) (s : ℕ → Bool) :
    (cnot c t).apply s = Function.update s t (s t ^^ s c) := by
  have hne : (cnot c t).opcode ≠ OP_NOP := show OP_CNOT ≠ OP_NOP by decide
  rw [Gate.apply_of_ne hne, Gate.controls_cnot (g := cnot c t) rfl, List.all_cons, List.all_nil, Bool.and_true]
  rfl

theorem apply_toffoli (a b t : ℕ) (s : ℕ → Bool) :
    (toffoli a b t).apply s = Function.update s t (s t ^^ (s a && s b)) := by
  have hne : (toffoli a b t).opcode ≠ OP_NOP := show OP_TOFFOLI ≠ OP_NOP by decide
  rw [Gate.apply_of_ne hne, Gate.controls_toffoli (g := toffoli a b t) rfl, List.all_cons, List.all_cons, List.all_nil,
    Bool.and_true]
  rfl

/-- The three kinds of step the adder takes. -/
theorem cnot_low (h : i < n) : (cnot (n + j) i).apply (join n x y) =
    join n (Function.update x i (x i ^^ y j)) y := by
  rw [apply_cnot, join_low h, join_high, update_join_low h]

theorem cnot_high : (cnot (n + j) (n + i)).apply (join n x y) =
    join n x (Function.update y i (y i ^^ y j)) := by
  rw [apply_cnot, join_high, join_high, update_join_high]

theorem toffoli_high (h : k < n) : (toffoli k (n + j) (n + i)).apply (join n x y) =
    join n x (Function.update y i (y i ^^ (x k && y j))) := by
  rw [apply_toffoli, join_high, join_low h, join_high, update_join_high]

end Steps

/-! ## 3. The four loops -/

theorem simulate_append (a b : List Gate) (s : ℕ → Bool) :
    simulate (a ++ b) s = simulate b (simulate a s) := List.foldl_append

theorem simulate_cons (g : Gate) (gs : List Gate) (s : ℕ → Bool) :
    simulate (g :: gs) s = simulate gs (g.apply s) := rfl

section Loops

variable {n : ℕ} {x y : ℕ → Bool}

/-- The lower wires of a range each take an upper one, `c i` for wire `i`. -/
theorem simulate_copyGates (c : ℕ → ℕ) : ∀ (k m : ℕ) (x : ℕ → Bool), m + k ≤ n →
    simulate ((List.range' m k).map fun i => cnot (n + c i) i) (join n x y) =
      join n (fun i => if m ≤ i ∧ i < m + k then x i ^^ y (c i) else x i) y
  | 0, m, x, _ => by
      refine congrArg (fun x => join n x y) (funext fun i => ?_)
      rw [if_neg (by omega)]
  | k + 1, m, x, h => by
      rw [List.range'_succ, List.map_cons, simulate_cons, cnot_low (by omega),
        simulate_copyGates c k (m + 1) _ (by omega)]
      refine congrArg (fun x => join n x y) (funext fun i => ?_)
      by_cases hi : i = m
      · rw [hi, if_neg (by omega), Function.update_self, if_pos (by omega)]
      · rw [Function.update_of_ne hi]
        exact if_congr (by omega) rfl rfl

theorem simulate_spreadGates : ∀ (k : ℕ) (y : ℕ → Bool),
    simulate (spreadGates n k) (join n x y) =
      join n x (fun j => if 2 ≤ j ∧ j ≤ k + 1 then y j ^^ y (j - 1) else y j)
  | 0, y => by
      refine congrArg (join n x) (funext fun j => ?_)
      rw [if_neg (by omega)]
  | k + 1, y => by
      rw [spreadGates, simulate_cons, cnot_high, simulate_spreadGates k]
      refine congrArg (join n x) (funext fun j => ?_)
      by_cases hj : j = k + 2
      · rw [hj, if_neg (by omega), Function.update_self, if_pos (by omega)]
        rfl
      · rw [Function.update_of_ne hj]
        by_cases hle : 2 ≤ j ∧ j ≤ k + 1
        · rw [if_pos hle, if_pos (by omega), Function.update_of_ne (by omega)]
        · rw [if_neg hle, if_neg (by omega)]

/-- What the ripple leaves in the upper register. -/
def ripple (x y : ℕ → Bool) : ℕ → Bool
  | 0 => y 0
  | i + 1 => y (i + 1) ^^ (x i && ripple x y i)

theorem simulate_rippleGates : ∀ (k : ℕ), k ≤ n → simulate (rippleGates n k) (join n x y) =
    join n x (fun j => if j ≤ k then ripple x y j else y j)
  | 0, _ => by
      refine congrArg (join n x) (funext fun j => ?_)
      by_cases hj : j = 0
      · rw [hj, if_pos (Nat.le_refl 0), ripple]
      · rw [if_neg (by omega)]
  | k + 1, h => by
      have e : rippleGates n (k + 1) = rippleGates n k ++ [toffoli k (n + k) (n + (k + 1))] := by
        rw [rippleGates, List.range_succ, List.map_append]
        rfl
      rw [e, simulate_append, simulate_rippleGates k (by omega), simulate_cons,
        toffoli_high (by omega)]
      refine congrArg (join n x) (funext fun j => ?_)
      by_cases hj : j = k + 1
      · rw [hj, Function.update_self, if_neg (by omega), if_pos (Nat.le_refl k),
          if_pos (Nat.le_refl _), ripple]
      · rw [Function.update_of_ne hj]
        exact if_congr (by omega) rfl rfl

/-- Each carry is added to the lower register, then removed. -/
theorem simulate_unrippleGates : ∀ (k : ℕ) (x y : ℕ → Bool), k < n →
    simulate (unrippleGates n k) (join n x y) =
      join n (fun j => if 1 ≤ j ∧ j ≤ k then x j ^^ y j else x j)
        (fun j => if 1 ≤ j ∧ j ≤ k then y j ^^ (x (j - 1) && y (j - 1)) else y j)
  | 0, x, y, _ => by
      refine congrArg₂ (join n) (funext fun j => ?_) (funext fun j => ?_)
      · rw [if_neg (by omega)]
      · rw [if_neg (by omega)]
  | k + 1, x, y, h => by
      rw [unrippleGates, simulate_cons, cnot_low h, simulate_cons, toffoli_high (by omega),
        simulate_unrippleGates k _ _ (by omega)]
      refine congrArg₂ (join n) (funext fun j => ?_) (funext fun j => ?_)
      · by_cases hj : j = k + 1
        · rw [hj, if_neg (by omega), Function.update_self, if_pos (by omega)]
        · rw [Function.update_of_ne hj, Function.update_of_ne hj]
          exact if_congr (by omega) rfl rfl
      · by_cases hj : j = k + 1
        · rw [hj, if_neg (by omega), Function.update_self, if_pos (by omega),
            Function.update_of_ne (by omega)]
          rfl
        · by_cases hle : 1 ≤ j ∧ j ≤ k
          · rw [if_pos hle, if_pos (by omega), Function.update_of_ne hj,
              Function.update_of_ne (by omega), Function.update_of_ne (by omega)]
          · rw [if_neg hle, if_neg (by omega), Function.update_of_ne hj]

/-- The reversed spread takes each upper bit's neighbour out again. -/
theorem simulate_reverse_spreadGates : ∀ (k : ℕ) (y : ℕ → Bool),
    simulate (spreadGates n k).reverse
      (join n x (fun j => if 2 ≤ j ∧ j ≤ k + 1 then y j ^^ y (j - 1) else y j)) = join n x y
  | 0, y => by
      rw [spreadGates, List.reverse_nil, simulate, List.foldl_nil]
      refine congrArg (join n x) (funext fun j => ?_)
      rw [if_neg (by omega)]
  | k + 1, y => by
      have e : (fun j => if 2 ≤ j ∧ j ≤ k + 1 + 1 then y j ^^ y (j - 1) else y j) =
          fun j => if 2 ≤ j ∧ j ≤ k + 1 then
            Function.update y (k + 2) (y (k + 2) ^^ y (k + 1)) j ^^
              Function.update y (k + 2) (y (k + 2) ^^ y (k + 1)) (j - 1)
            else Function.update y (k + 2) (y (k + 2) ^^ y (k + 1)) j := by
        funext j
        by_cases hj : j = k + 2
        · rw [hj, if_pos (by omega), if_neg (by omega), Function.update_self]
          rfl
        · rw [Function.update_of_ne hj]
          by_cases hle : 2 ≤ j ∧ j ≤ k + 1
          · rw [if_pos hle, if_pos (by omega), Function.update_of_ne (by omega)]
          · rw [if_neg hle, if_neg (by omega)]
      rw [e, spreadGates, List.reverse_cons, simulate_append, simulate_reverse_spreadGates k,
        simulate_cons, cnot_high, Function.update_self, Function.update_of_ne (by omega),
        Bool.xor_assoc, Bool.xor_self, Bool.xor_false, Function.update_idem,
        Function.update_eq_self]
      rfl

end Loops

/-! ## 4. The sum -/

section Sum

variable {n : ℕ} (a b : BitVec n)

/-- The lower register before the ripple. -/
def copied (i : ℕ) : Bool :=
  if 1 ≤ i ∧ i < 1 + (n - 1) then a.getLsbD i ^^ b.getLsbD i else a.getLsbD i

/-- The upper register before the ripple. -/
def spread (j : ℕ) : Bool :=
  if 2 ≤ j ∧ j ≤ n - 2 + 1 then b.getLsbD j ^^ b.getLsbD (j - 1) else b.getLsbD j

/-- **The ripple leaves each carry beside its bit.** -/
theorem ripple_eq_carry : ∀ {i : ℕ}, i < n →
    ripple (copied a b) (spread b) i = (b.getLsbD i ^^ BitVec.carry i a b false)
  | 0, _ => by simp [ripple, spread]
  | 1, h => by
      rw [ripple, ripple_eq_carry (by omega), BitVec.carry_succ, BitVec.carry_zero, spread,
        if_neg (by omega), copied, if_neg (by omega)]
      cases a.getLsbD 0 <;> cases b.getLsbD 0 <;> rfl
  | i + 2, h => by
      rw [ripple, ripple_eq_carry (by omega), BitVec.carry_succ (i + 1), spread, if_pos (by omega),
        copied, if_pos (by omega)]
      show ((b.getLsbD (i + 2) ^^ b.getLsbD (i + 1)) ^^ _) = _
      cases a.getLsbD (i + 1) <;> cases b.getLsbD (i + 1) <;> cases b.getLsbD (i + 2) <;>
        cases BitVec.carry (i + 1) a b false <;> rfl

/-- The upper register after the ripple. -/
def carried (j : ℕ) : Bool :=
  if j ≤ n - 1 then ripple (copied a b) (spread b) j else spread b j

theorem carried_of_lt {j : ℕ} (h : j < n) : carried a b j = ripple (copied a b) (spread b) j :=
  if_pos (by omega)

theorem summed_eq {i : ℕ} (h : i < n) :
    ((if 1 ≤ i ∧ i ≤ n - 1 then copied a b i ^^ carried a b i else copied a b i) ^^ b.getLsbD i) =
      (a + b).getLsbD i := by
  rw [BitVec.getLsbD_add h]
  by_cases hi : 1 ≤ i
  · rw [if_pos (by omega), carried_of_lt a b h, ripple_eq_carry a b h, copied, if_pos (by omega)]
    cases a.getLsbD i <;> cases b.getLsbD i <;> cases BitVec.carry i a b false <;> rfl
  · obtain rfl : i = 0 := by omega
    rw [if_neg (by omega), copied, if_neg (by omega), BitVec.carry_zero]
    cases a.getLsbD 0 <;> cases b.getLsbD 0 <;> rfl

/-- The carries are taken out again. -/
theorem uncarried_eq (hn : 0 < n) (j : ℕ) :
    (if 1 ≤ j ∧ j ≤ n - 1 then carried a b j ^^ (copied a b (j - 1) && carried a b (j - 1))
      else carried a b j) = spread b j := by
  rcases j with _ | j
  · rw [if_neg (by omega), carried_of_lt a b hn, ripple]
  · by_cases hj : j + 1 ≤ n - 1
    · rw [if_pos (by omega), carried_of_lt a b (by omega), Nat.add_sub_cancel,
        carried_of_lt a b (by omega), ripple, Bool.xor_assoc, Bool.xor_self, Bool.xor_false]
    · rw [if_neg (by omega), carried, if_neg hj]

/-- **The adder adds.** -/
theorem simulate_adder (hn : 0 < n) :
    simulate (adder n) (join n a.getLsbD b.getLsbD) = join n (a + b).getLsbD b.getLsbD := by
  have hcopy : simulate (copyGates n 1) (join n a.getLsbD b.getLsbD) =
      join n (copied a b) b.getLsbD := simulate_copyGates (fun i => i) (n - 1) 1 _ (by omega)
  have hspread : simulate (spreadGates n (n - 2)) (join n (copied a b) b.getLsbD) =
      join n (copied a b) (spread b) := simulate_spreadGates (n - 2) _
  have hripple : simulate (rippleGates n (n - 1)) (join n (copied a b) (spread b)) =
      join n (copied a b) (carried a b) := simulate_rippleGates (n - 1) (Nat.sub_le n 1)
  have hunripple : simulate (unrippleGates n (n - 1)) (join n (copied a b) (carried a b)) =
      join n (fun j => if 1 ≤ j ∧ j ≤ n - 1 then copied a b j ^^ carried a b j else copied a b j)
        (spread b) := by
    rw [simulate_unrippleGates (n - 1) _ _ (by omega)]
    exact congrArg (join n _) (funext (uncarried_eq a b hn))
  have hunspread : ∀ x, simulate (spreadGates n (n - 2)).reverse (join n x (spread b)) =
      join n x b.getLsbD := fun x => simulate_reverse_spreadGates (n - 2) b.getLsbD
  rw [adder, simulate_append, simulate_append, simulate_append, simulate_append, simulate_append,
    hcopy, hspread, hripple, hunripple, hunspread]
  refine (simulate_copyGates (fun i => i) n 0 _ (by omega)).trans ?_
  funext i
  by_cases hi : i < n
  · rw [join_low hi, join_low hi, if_pos (by omega), summed_eq a b hi]
  · rw [join, if_neg hi, join, if_neg hi]

end Sum

/-! ## 5. Its gates fit the format -/

section Fits

variable {n m : ℕ} {g : Gate}

/-- A gate without a surplus control, on the wires below `m`. -/
structure Gate.Plain (g : Gate) (m : ℕ) : Prop where
  inRange : g.InRange m
  canonical : g.Canonical

theorem Gate.Plain.fits (h : g.Plain m) (hm : m ≤ 2 ^ 16) : g.Fits := by
  have hall : ∀ w ∈ g.used ++ g.unused, w < 2 ^ 16 := by
    intro w hw
    rcases List.mem_append.mp hw with hw | hw
    · exact (h.inRange.wires w hw).trans_le hm
    · rw [h.canonical w hw]
      decide
  have hmem : g.target ∈ g.used ++ g.unused ∧ g.ctrlA ∈ g.used ++ g.unused ∧
      g.ctrlB ∈ g.used ++ g.unused := by
    unfold Gate.used Gate.unused Gate.controls
    rcases g.opcode_cases with e | e | e | e | e
    · simp [e]
    · simp [e, OP_NOT, OP_NOP, OP_CNOT]
    · simp [e, OP_NOT, OP_NOP, OP_CNOT]
    · simp [e, OP_NOT, OP_NOP, OP_CNOT, OP_TOFFOLI]
    · exact absurd h.inRange (Gate.not_inRange e)
  exact ⟨h.inRange.opcode, hall _ hmem.1, hall _ hmem.2.1, hall _ hmem.2.2⟩

theorem plain_cnot {c t : ℕ} (hc : c < m) (ht : t < m) : (cnot c t).Plain m where
  inRange := (Gate.inRange_of_ne (show OP_CNOT ≠ OP_NOP by decide) (show OP_CNOT ≤ _ by decide)).mpr
    ⟨ht, by rw [Gate.controls_cnot (g := cnot c t) rfl]; simpa [cnot] using hc⟩
  canonical := (Gate.canonical_cnot (g := cnot c t) rfl).mpr rfl

theorem plain_toffoli {a b t : ℕ} (ha : a < m) (hb : b < m) (ht : t < m) :
    (toffoli a b t).Plain m where
  inRange :=
    (Gate.inRange_of_ne (show OP_TOFFOLI ≠ OP_NOP by decide) (show OP_TOFFOLI ≤ _ by decide)).mpr
      ⟨ht, by rw [Gate.controls_toffoli (g := toffoli a b t) rfl]; simpa [toffoli] using ⟨ha, hb⟩⟩
  canonical := Gate.canonical_toffoli (g := toffoli a b t) rfl

theorem plain_copyGates (h : g ∈ copyGates n m) : g.Plain (2 * n) := by
  obtain ⟨i, hi, rfl⟩ := List.mem_map.mp h
  have := List.mem_range'_1.mp hi
  exact plain_cnot (by omega) (by omega)

theorem plain_spreadGates : ∀ {k : ℕ}, k + 1 < n → g ∈ spreadGates n k → g.Plain (2 * n)
  | 0, _, h => absurd h List.not_mem_nil
  | k + 1, hk, h => by
      rcases List.mem_cons.mp h with rfl | h
      · exact plain_cnot (by omega) (by omega)
      · exact plain_spreadGates (by omega) h

theorem plain_rippleGates {k : ℕ} (hk : k < n) (h : g ∈ rippleGates n k) : g.Plain (2 * n) := by
  obtain ⟨i, hi, rfl⟩ := List.mem_map.mp h
  have := List.mem_range.mp hi
  exact plain_toffoli (by omega) (by omega) (by omega)

theorem plain_unrippleGates : ∀ {k : ℕ}, k < n → g ∈ unrippleGates n k → g.Plain (2 * n)
  | 0, _, h => absurd h List.not_mem_nil
  | k + 1, hk, h => by
      rcases List.mem_cons.mp h with rfl | h
      · exact plain_cnot (by omega) (by omega)
      rcases List.mem_cons.mp h with rfl | h
      · exact plain_toffoli (by omega) (by omega) (by omega)
      · exact plain_unrippleGates (by omega) h

theorem plain_adder (hn : 2 ≤ n) (h : g ∈ adder n) : g.Plain (2 * n) := by
  simp only [adder, List.mem_append, List.mem_reverse] at h
  rcases h with ((((h | h) | h) | h) | h) | h
  · exact plain_copyGates h
  · exact plain_spreadGates (by omega) h
  · exact plain_rippleGates (by omega) h
  · exact plain_unrippleGates (by omega) h
  · exact plain_spreadGates (by omega) h
  · exact plain_copyGates h

theorem length_spreadGates : ∀ k, (spreadGates n k).length = k
  | 0 => rfl
  | k + 1 => congrArg Nat.succ (length_spreadGates k)

theorem length_unrippleGates : ∀ k, (unrippleGates n k).length = 2 * k
  | 0 => rfl
  | k + 1 => congrArg (Nat.succ ∘ Nat.succ) (length_unrippleGates k)

theorem length_adder (n : ℕ) : (adder n).length ≤ 7 * n := by
  simp only [adder, copyGates, rippleGates, List.length_append, List.length_map,
    List.length_range', List.length_range, List.length_reverse, length_spreadGates,
    length_unrippleGates]
  omega

end Fits

/-! ## 6. The registers in bytes -/

/-- Two 256-bit registers, 32 bytes each, the lowest byte first. -/
def registers (a b : ℕ) : List UInt8 := bytesLe 32 a ++ bytesLe 32 b

theorem length_registers (a b : ℕ) : (registers a b).length = 64 := by
  rw [registers, List.length_append, length_bytesLe, length_bytesLe]

theorem wires_eq_testBit (bytes : List UInt8) : wires bytes = (leNat bytes).testBit :=
  funext fun i => (testBit_leNat bytes i).symm

theorem wires_registers (a b : BitVec 256) :
    wires (registers a.toNat b.toNat) = join 256 a.getLsbD b.getLsbD := by
  have e : (256 : ℕ) ^ 32 = 2 ^ 256 := by norm_num
  have ha : a.toNat < 256 ^ 32 := e ▸ a.isLt
  have hb : b.toNat < 256 ^ 32 := e ▸ b.isLt
  rw [wires_eq_testBit, registers, leNat_append, length_bytesLe, leNat_bytesLe_of_lt ha,
    leNat_bytesLe_of_lt hb, e, Nat.add_comm]
  funext i
  rw [Nat.testBit_two_pow_mul_add _ a.isLt]
  rfl

end GroverTax.Gtv1
