/-
  File:      GroverTax/Kickmix/AncillaAdder.lean
  Subject:   The adder with measurements, iadd8_with_ancillae.kmx under
             src/third_party/sp1/docs/example_data, for any number of bits.

  The lowest ancilla carries. Each bit takes its carry on the way up and puts the conjunction that
  makes the next one on an ancilla of its own; on the way down HMR takes the conjunction away, and a
  CZ under its outcome what HMR does to the phase.
  * `Moves` -- what a list of instructions does to the qubits, whatever is measured;
  * `moves_forward`, `moves_turn`, `moves_backward` -- the loops, as closed states of the carries;
  * **`moves_ancillaAdder`** -- **it adds**, leaves the ancillas off and the phase as it was.
-/
import GroverTax.Gtv1.Iadd
import GroverTax.Kickmix.Uncompute

namespace GroverTax.Kickmix

open GroverTax.Lib
open GroverTax.Gtv1 (carryIn carryIn_succ sum_bit)

/-! ## 1. Moves -/

/-- **Over every measurement source** the instructions take the qubits that hold `u` to qubits that
    hold `u'`, from a positive phase to a positive phase, outside every block. -/
def Moves (m b : ℕ) (insts : List Instruction) (u u' : ℕ → Bool) : Prop :=
  ∀ (M : Type) [MeasureSource M] (src : M) (bits : List Bool), bits.length = b →
    ∃ bits' src', bits'.length = b ∧
      runInstructions insts ⟨(List.range m).map u, bits, false, []⟩ src =
        some (⟨(List.range m).map u', bits', false, []⟩, src')

/-- An instruction on qubits, without a condition. -/
def gate (op : Op) (qs : List ℕ) : Instruction := ⟨op.name, qs.map .qubit, none⟩

section Moves

variable {m b : ℕ} {insts insts' : List Instruction} {u u' u'' : ℕ → Bool} {i c t a k : ℕ}

theorem Moves.nil : Moves m b [] u u :=
  fun _ _ src bits h => ⟨bits, src, h, rfl⟩

theorem Moves.append (h : Moves m b insts u u') (h' : Moves m b insts' u' u'') :
    Moves m b (insts ++ insts') u u'' := by
  intro M _ src bits hb
  obtain ⟨bits1, src1, hb1, h1⟩ := h M src bits hb
  obtain ⟨bits2, src2, hb2, h2⟩ := h' M src1 bits1 hb1
  refine ⟨bits2, src2, hb2, ?_⟩
  rw [runInstructions] at h1 h2 ⊢
  rw [run_append, h1, Option.bind_some, h2]

theorem Moves.cons {inst : Instruction} (h : Moves m b [inst] u u') (h' : Moves m b insts u' u'') :
    Moves m b (inst :: insts) u u'' := h.append h'

theorem readQubit_range (h : i < m) (bits : List Bool) (p : Bool) (cs : List Bool) :
    State.readQubit ⟨(List.range m).map u, bits, p, cs⟩ i = some (u i) := by
  rw [State.readQubit, List.getElem?_map, List.getElem?_range h, Option.map_some]

theorem set_range (u : ℕ → Bool) (i : ℕ) (v : Bool) :
    ((List.range m).map u).set i v = (List.range m).map (Function.update u i v) := by
  refine List.ext_getElem (by simp) fun j hj hj' => ?_
  rw [List.getElem_set, List.getElem_map, List.getElem_map, List.getElem_range,
    Function.update_apply]
  exact if_congr eq_comm rfl rfl

/-- Outside every block an instruction without a condition acts. -/
theorem moves_gate {op : Op} {qs : List ℕ} (hop : isGate op = true)
    (h : ∀ (M : Type) [MeasureSource M] (src : M) (bits : List Bool),
      exec op (qs.map .qubit) ⟨(List.range m).map u, bits, false, []⟩ src =
        some (⟨(List.range m).map u', bits, false, []⟩, src)) :
    Moves m b [gate op qs] u u' := by
  intro M _ src bits hb
  refine ⟨bits, src, hb, ?_⟩
  rw [runInstructions, run_cons, gate, step_gate hop, State.active_of_all rfl, if_pos rfl, h M]
  rfl

theorem moves_cx (hc : c < m) (ht : t < m) :
    Moves m b [gate .cx [c, t]] u (Function.update u t (u t ^^ u c)) := by
  refine moves_gate rfl fun M _ src bits => ?_
  simp [exec, q, readQubit_range hc, readQubit_range ht, State.xorQubit, State.writeQubit, ht,
    set_range]

theorem moves_ccx (ha : a < m) (hc : c < m) (ht : t < m) :
    Moves m b [gate .ccx [a, c, t]] u (Function.update u t (u t ^^ (u a && u c))) := by
  refine moves_gate rfl fun M _ src bits => ?_
  simp [exec, q, State.allOn_pair (readQubit_range ha ..) (readQubit_range hc ..),
    readQubit_range ht, State.xorQubit, State.writeQubit, ht, set_range]

/-- A reset of a qubit that is off draws nothing. -/
theorem moves_reset (ht : t < m) (hoff : u t = false) : Moves m b [gate .r [t]] u u := by
  refine moves_gate rfl fun M _ src bits => ?_
  simp [exec, q, readQubit_range ht, hoff, State.xorPhase, State.writeQubit, ht, set_range]
  intro i _
  rw [Function.update_apply]
  split_ifs with hi
  · rw [hi, hoff]
  · rfl

/-- **The uncomputation of a conjunction**, whatever the outcome. -/
theorem moves_uncompute (ha : a < m) (hc : c < m) (ht : t < m) (hk : k < b) (hta : t ≠ a)
    (htc : t ≠ c) (hu : u t = (u a && u c)) :
    Moves m b (uncompute a c t k) u (Function.update u t false) := by
  intro M _ src bits hb
  have hrun := run_uncompute (M := M) (k := k) src
    (s := ⟨(List.range m).map u, bits, false, []⟩) rfl hta htc
    (readQubit_range ha ..) (readQubit_range hc ..) (hu ▸ readQubit_range ht ..) (hb.symm ▸ hk)
  refine ⟨bits.set k (MeasureSource.nextBit src).1, (MeasureSource.nextBit src).2, ?_, ?_⟩
  · rw [List.length_set, hb]
  · rw [hrun, State.measured]
    dsimp only
    rw [set_range]

end Moves

/-! ## 2. Two registers and the ancillas -/

/-- `x` on the wires below `n`, `y` on the next `n`, and `z` on the ancillas above. -/
def trio (n : ℕ) (x y z : ℕ → Bool) (i : ℕ) : Bool :=
  if i < n then x i else if i < 2 * n then y (i - n) else z (i - 2 * n)

section Trio

variable {n m b i j : ℕ} {x y z : ℕ → Bool} {v : Bool}

theorem trio_low (h : i < n) : trio n x y z i = x i := if_pos h

theorem trio_high (h : i < n) : trio n x y z (n + i) = y i := by
  rw [trio, if_neg (by omega), if_pos (by omega), Nat.add_sub_cancel_left]

theorem trio_anc : trio n x y z (2 * n + i) = z i := by
  rw [trio, if_neg (by omega), if_neg (by omega), Nat.add_sub_cancel_left]

theorem update_trio_low (h : i < n) :
    Function.update (trio n x y z) i v = trio n (Function.update x i v) y z := by
  funext j
  by_cases hj : j = i
  · rw [hj, Function.update_self, trio_low h, Function.update_self]
  · rw [Function.update_of_ne hj, trio, trio, Function.update_of_ne hj]

theorem update_trio_high (h : i < n) :
    Function.update (trio n x y z) (n + i) v = trio n x (Function.update y i v) z := by
  funext j
  by_cases hj : j = n + i
  · rw [hj, Function.update_self, trio_high h, Function.update_self]
  · rw [Function.update_of_ne hj, trio, trio]
    split_ifs with h1 h2
    · rfl
    · rw [Function.update_of_ne (by omega)]
    · rfl

theorem update_trio_anc :
    Function.update (trio n x y z) (2 * n + i) v = trio n x y (Function.update z i v) := by
  funext j
  by_cases hj : j = 2 * n + i
  · rw [hj, Function.update_self, trio_anc, Function.update_self]
  · rw [Function.update_of_ne hj, trio, trio]
    split_ifs with h1 h2
    · rfl
    · rfl
    · rw [Function.update_of_ne (by omega)]

/-- An ancilla onto a wire of the lower register, -/
theorem moves_anc_low (hi : i < n) (hj : 2 * n + j < m) : Moves m b [gate .cx [2 * n + j, i]]
    (trio n x y z) (trio n (Function.update x i (x i ^^ z j)) y z) := by
  have h := @moves_cx m b (trio n x y z) (2 * n + j) i hj (by omega)
  rwa [trio_low hi, trio_anc, update_trio_low hi] at h

/-- of the upper one, -/
theorem moves_anc_high (hi : i < n) (hj : 2 * n + j < m) :
    Moves m b [gate .cx [2 * n + j, n + i]] (trio n x y z)
      (trio n x (Function.update y i (y i ^^ z j)) z) := by
  have h := @moves_cx m b (trio n x y z) (2 * n + j) (n + i) hj (by omega)
  rwa [trio_high hi, trio_anc, update_trio_high hi] at h

/-- and onto the lowest one. -/
theorem moves_anc_anc (hj : 2 * n + j < m) : Moves m b [gate .cx [2 * n + j, 2 * n]]
    (trio n x y z) (trio n x y (Function.update z 0 (z 0 ^^ z j))) := by
  have h := @moves_cx m b (trio n x y z) (2 * n + j) (2 * n + 0) hj (by omega)
  rwa [trio_anc, trio_anc, update_trio_anc] at h

/-- A wire of the upper register onto its neighbour. -/
theorem moves_high_low (hi : i < n) (hm : 2 * n ≤ m) : Moves m b [gate .cx [n + i, i]]
    (trio n x y z) (trio n (Function.update x i (x i ^^ y i)) y z) := by
  have h := @moves_cx m b (trio n x y z) (n + i) i (by omega) (by omega)
  rwa [trio_low hi, trio_high hi, update_trio_low hi] at h

/-- The conjunction of a bit onto its ancilla, -/
theorem moves_and_anc (hi : i < n) (hj : 2 * n + i < m) :
    Moves m b [gate .ccx [i, n + i, 2 * n + i]] (trio n x y z)
      (trio n x y (Function.update z i (z i ^^ (x i && y i)))) := by
  have h := @moves_ccx m b (trio n x y z) (n + i) (2 * n + i) i (by omega) (by omega) hj
  rwa [trio_low hi, trio_high hi, trio_anc, update_trio_anc] at h

/-- and onto a wire of the lower register. -/
theorem moves_and_low (hi : i < n) (hj : j < n) (hm : 2 * n ≤ m) :
    Moves m b [gate .ccx [i, n + i, j]] (trio n x y z)
      (trio n (Function.update x j (x j ^^ (x i && y i))) y z) := by
  have h := @moves_ccx m b (trio n x y z) (n + i) j i (by omega) (by omega) (by omega)
  rwa [trio_low hi, trio_high hi, trio_low hj, update_trio_low hj] at h

theorem moves_reset_anc (hj : 2 * n + j < m) (hoff : z j = false) :
    Moves m b [gate .r [2 * n + j]] (trio n x y z) (trio n x y z) :=
  moves_reset hj (trio_anc.trans hoff)

/-- The conjunction is taken from its ancilla. -/
theorem moves_uncompute_anc (hi : i < n) (hj : 2 * n + i < m) (hb : 0 < b)
    (hz : z i = (x i && y i)) :
    Moves m b (uncompute i (n + i) (2 * n + i) 0) (trio n x y z)
      (trio n x y (Function.update z i false)) := by
  have h := @moves_uncompute m b (trio n x y z) (n + i) (2 * n + i) i 0 (by omega) (by omega) hj hb
    (by omega) (by omega) (by rw [trio_anc, trio_low hi, trio_high hi, hz])
  rwa [update_trio_anc] at h

end Trio

/-! ## 3. The circuit -/

/-- For `i = 1, …, k`. -/
def ancillaForward (n k : ℕ) : List Instruction :=
  (List.range' 1 k).flatMap fun i =>
    [gate .r [2 * n + i], gate .ccx [i, n + i, 2 * n + i], gate .cx [2 * n + i, 2 * n],
      gate .cx [2 * n, n + (i + 1)], gate .cx [2 * n, i + 1]]

/-- The turn, at bit `n - 2`. -/
def ancillaTurn (n : ℕ) : List Instruction :=
  [gate .cx [2 * n, n - 1], gate .ccx [n - 2, n + (n - 2), n - 1], gate .cx [2 * n, n + (n - 2)],
    gate .cx [n + (n - 2), n - 2]]

/-- For `i = k, …, 1`. -/
def ancillaBackward (n : ℕ) : ℕ → List Instruction
  | 0 => []
  | k + 1 => gate .cx [2 * n + (k + 1), 2 * n] ::
      uncompute (k + 1) (n + (k + 1)) (2 * n + (k + 1)) 0 ++
      gate .cx [2 * n, n + (k + 1)] :: gate .cx [n + (k + 1), k + 1] :: ancillaBackward n k

/-- **The adder with measurements** on `n` bits, three or more, with `n - 2` ancillas. -/
def ancillaAdder (n : ℕ) : List Instruction :=
  gate .cx [n + (n - 1), n - 1] :: gate .r [2 * n] :: gate .ccx [0, n, 2 * n] ::
    gate .cx [2 * n, n + 1] :: gate .cx [2 * n, 1] :: ancillaForward n (n - 3) ++ ancillaTurn n ++
    ancillaBackward n (n - 3) ++ uncompute 0 n (2 * n) 0 ++ [gate .cx [n, 0]]

/-! ## 4. The states between the loops -/

section Sum

variable {n m w : ℕ} (a b : BitVec n)

/-- The lower register when the carries up to bit `k + 1` are in, -/
def lowIn (k i : ℕ) : Bool :=
  if i = n - 1 then a.getLsbD (n - 1) ^^ b.getLsbD (n - 1)
  else if i ≤ k + 1 then a.getLsbD i ^^ carryIn a b i else a.getLsbD i

/-- and when the sums above bit `k` are. -/
def lowOut (k i : ℕ) : Bool :=
  if i ≤ k then a.getLsbD i ^^ carryIn a b i else (a + b).getLsbD i

/-- The upper register, when it has the carries up to bit `k`. -/
def highUpTo (k j : ℕ) : Bool :=
  if j ≤ k then b.getLsbD j ^^ carryIn a b j else b.getLsbD j

/-- The ancillas: the carry into bit `k + 1`, and the conjunctions of the bits up to `k`. -/
def ancillas (k j : ℕ) : Bool :=
  if j = 0 then carryIn a b (k + 1)
  else if j ≤ k then (a.getLsbD j ^^ carryIn a b j) && (b.getLsbD j ^^ carryIn a b j) else false

variable {a b}

theorem carryIn_zero : carryIn a b 0 = false := BitVec.carry_zero

theorem ancillas_zero (k : ℕ) : ancillas a b k 0 = carryIn a b (k + 1) := if_pos rfl

theorem ancillas_off {k j : ℕ} (h : k < j) : ancillas a b k j = false := by
  rw [ancillas, if_neg (by omega), if_neg (by omega)]

theorem lowIn_next {k : ℕ} (h : k + 1 < n - 1) :
    lowIn a b k (k + 1) = (a.getLsbD (k + 1) ^^ carryIn a b (k + 1)) := by
  rw [lowIn, if_neg (by omega), if_pos (Nat.le_refl _)]

theorem highUpTo_self (k : ℕ) : highUpTo a b k k = (b.getLsbD k ^^ carryIn a b k) :=
  if_pos (Nat.le_refl _)

theorem update_lowIn {k : ℕ} (h : k + 2 < n - 1) : Function.update (lowIn a b k) (k + 2)
    (lowIn a b k (k + 2) ^^ carryIn a b (k + 2)) = lowIn a b (k + 1) := by
  funext i
  by_cases hi : i = k + 2
  · rw [hi, Function.update_self, lowIn, if_neg (by omega), if_neg (by omega), lowIn,
      if_neg (by omega), if_pos (Nat.le_refl _)]
  · rw [Function.update_of_ne hi, lowIn, lowIn]
    exact if_congr Iff.rfl rfl (if_congr (by omega) rfl rfl)

theorem update_highUpTo {k : ℕ} : Function.update (highUpTo a b k) (k + 1)
    (highUpTo a b k (k + 1) ^^ carryIn a b (k + 1)) = highUpTo a b (k + 1) := by
  funext j
  by_cases hj : j = k + 1
  · rw [hj, Function.update_self, highUpTo_self, highUpTo, if_neg (by omega)]
  · rw [Function.update_of_ne hj]
    exact if_congr (by omega) rfl rfl

/-- The next conjunction and the next carry. -/
theorem update_ancillas {k : ℕ} : Function.update (Function.update (ancillas a b k) (k + 1)
    ((a.getLsbD (k + 1) ^^ carryIn a b (k + 1)) && (b.getLsbD (k + 1) ^^ carryIn a b (k + 1))))
      0 (carryIn a b (k + 2)) = ancillas a b (k + 1) := by
  funext j
  by_cases h0 : j = 0
  · rw [h0, Function.update_self, ancillas_zero]
  · rw [Function.update_of_ne h0]
    by_cases hj : j = k + 1
    · rw [hj, Function.update_self, ancillas, if_neg (by omega), if_pos (Nat.le_refl _)]
    · rw [Function.update_of_ne hj, ancillas, ancillas, if_neg h0, if_neg h0]
      exact if_congr (by omega) rfl rfl

/-- A carry is the one below, with its conjunction. -/
theorem carryIn_step (i : ℕ) : (carryIn a b i ^^
    ((a.getLsbD i ^^ carryIn a b i) && (b.getLsbD i ^^ carryIn a b i))) = carryIn a b (i + 1) := by
  rw [carryIn_succ]
  cases a.getLsbD i <;> cases b.getLsbD i <;> cases carryIn a b i <;> rfl

/-- **One turn of the loop upwards.** -/
theorem moves_forward_step {k : ℕ} (h : k + 2 < n - 1) (hm : 2 * n + (k + 1) < m) :
    Moves m w [gate .r [2 * n + (k + 1)], gate .ccx [k + 1, n + (k + 1), 2 * n + (k + 1)],
        gate .cx [2 * n + (k + 1), 2 * n], gate .cx [2 * n, n + (k + 1 + 1)],
        gate .cx [2 * n, k + 1 + 1]]
      (trio n (lowIn a b k) (highUpTo a b (k + 1)) (ancillas a b k))
      (trio n (lowIn a b (k + 1)) (highUpTo a b (k + 2)) (ancillas a b (k + 1))) := by
  have hreset := @moves_reset_anc n m w (k + 1) (lowIn a b k) (highUpTo a b (k + 1))
    (ancillas a b k) hm (ancillas_off (by omega))
  have hand := @moves_and_anc n m w (k + 1) (lowIn a b k) (highUpTo a b (k + 1)) (ancillas a b k)
    (by omega) hm
  rw [ancillas_off (by omega), Bool.false_xor, lowIn_next (by omega), highUpTo_self] at hand
  have hcarry := @moves_anc_anc n m w (k + 1) (lowIn a b k) (highUpTo a b (k + 1))
    (Function.update (ancillas a b k) (k + 1) ((a.getLsbD (k + 1) ^^ carryIn a b (k + 1)) &&
      (b.getLsbD (k + 1) ^^ carryIn a b (k + 1)))) hm
  rw [Function.update_self, Function.update_of_ne (show 0 ≠ k + 1 by omega), ancillas_zero,
    carryIn_step, update_ancillas] at hcarry
  have hhigh := @moves_anc_high n m w (k + 1 + 1) 0 (lowIn a b k) (highUpTo a b (k + 1))
    (ancillas a b (k + 1)) (by omega) (by omega)
  rw [ancillas_zero, update_highUpTo] at hhigh
  have hlow := @moves_anc_low n m w (k + 1 + 1) 0 (lowIn a b k) (highUpTo a b (k + 2))
    (ancillas a b (k + 1)) (by omega) (by omega)
  rw [ancillas_zero, update_lowIn h] at hlow
  exact hreset.cons (hand.cons (hcarry.cons (hhigh.cons hlow)))

theorem moves_forward (hm : 3 * n ≤ m + 2) : ∀ (k : ℕ), k + 2 < n →
    Moves m w (ancillaForward n k)
      (trio n (lowIn a b 0) (highUpTo a b 1) (ancillas a b 0))
      (trio n (lowIn a b k) (highUpTo a b (k + 1)) (ancillas a b k))
  | 0, _ => .nil
  | k + 1, h => by
      rw [ancillaForward, List.range'_1_concat, List.flatMap_append, List.flatMap_singleton,
        Nat.add_comm 1 k]
      exact (moves_forward hm k (by omega)).append (moves_forward_step (by omega) (by omega))

/-! ## 5. The way back -/

/-- Two bits and their carry make the sum. -/
theorem sum_of_carried {i : ℕ} (h : i < n) :
    ((a.getLsbD i ^^ carryIn a b i) ^^ b.getLsbD i) = (a + b).getLsbD i := by
  rw [sum_bit h]
  cases a.getLsbD i <;> cases b.getLsbD i <;> cases carryIn a b i <;> rfl

/-- The top bit, from the carry below it. -/
theorem sum_top {k : ℕ} (hk : k + 2 = n - 1) :
    (lowIn a b k (n - 1) ^^ carryIn a b (k + 1) ^^ ((a.getLsbD (k + 1) ^^ carryIn a b (k + 1)) &&
      (b.getLsbD (k + 1) ^^ carryIn a b (k + 1)))) = (a + b).getLsbD (n - 1) := by
  rw [lowIn, if_pos rfl, sum_bit (by omega), Bool.xor_assoc, carryIn_step, ← hk, Bool.xor_assoc]

theorem update_highUpTo_back {k : ℕ} : Function.update (highUpTo a b (k + 1)) (k + 1)
    (highUpTo a b (k + 1) (k + 1) ^^ carryIn a b (k + 1)) = highUpTo a b k := by
  funext j
  by_cases hj : j = k + 1
  · rw [hj, Function.update_self, highUpTo_self, highUpTo, if_neg (by omega), Bool.xor_assoc,
      Bool.xor_self, Bool.xor_false]
  · rw [Function.update_of_ne hj]
    exact if_congr (by omega) rfl rfl

theorem highUpTo_above {k j : ℕ} (h : k < j) : highUpTo a b k j = b.getLsbD j := if_neg (by omega)

/-- With the two sums the lower register is on its way out. -/
theorem update_lowIn_turn {k : ℕ} (hk : k + 2 = n - 1) :
    Function.update (Function.update (lowIn a b k) (n - 1) ((a + b).getLsbD (n - 1))) (k + 1)
      ((a + b).getLsbD (k + 1)) = lowOut a b k := by
  funext i
  by_cases hi : i = k + 1
  · rw [hi, Function.update_self, lowOut, if_neg (by omega)]
  · rw [Function.update_of_ne hi]
    by_cases hi' : i = n - 1
    · rw [hi', Function.update_self, lowOut, if_neg (by omega)]
    · rw [Function.update_of_ne hi', lowIn, if_neg hi', lowOut]
      by_cases hle : i ≤ k
      · rw [if_pos (by omega), if_pos hle]
      · -- beyond the register
        rw [if_neg (by omega), if_neg hle, BitVec.getLsbD_of_ge _ _ (by omega),
          BitVec.getLsbD_of_ge _ _ (by omega)]

/-- **The turn**: the top bit takes its sum, and the bit below it too. -/
theorem moves_turn {k : ℕ} (hk : k + 2 = n - 1) (hm : 2 * n < m) : Moves m w (ancillaTurn n)
    (trio n (lowIn a b k) (highUpTo a b (k + 1)) (ancillas a b k))
    (trio n (lowOut a b k) (highUpTo a b k) (ancillas a b k)) := by
  rw [ancillaTurn, show n - 2 = k + 1 by omega]
  have hne : k + 1 ≠ n - 1 := by omega
  have htop := @moves_anc_low n m w (n - 1) 0 (lowIn a b k) (highUpTo a b (k + 1)) (ancillas a b k)
    (by omega) hm
  rw [ancillas_zero] at htop
  have hand := @moves_and_low n m w (k + 1) (n - 1) (Function.update (lowIn a b k) (n - 1)
    (lowIn a b k (n - 1) ^^ carryIn a b (k + 1))) (highUpTo a b (k + 1)) (ancillas a b k)
    (by omega) (by omega) hm.le
  rw [Function.update_self, Function.update_of_ne hne, lowIn_next (by omega), highUpTo_self,
    sum_top hk, Function.update_idem] at hand
  have hhigh := @moves_anc_high n m w (k + 1) 0 (Function.update (lowIn a b k) (n - 1)
    ((a + b).getLsbD (n - 1))) (highUpTo a b (k + 1)) (ancillas a b k) (by omega) hm
  rw [ancillas_zero, update_highUpTo_back] at hhigh
  have hlow := @moves_high_low n m w (k + 1) (Function.update (lowIn a b k) (n - 1)
    ((a + b).getLsbD (n - 1))) (highUpTo a b k) (ancillas a b k) (by omega) hm.le
  rw [Function.update_of_ne hne, lowIn_next (by omega), highUpTo_above (Nat.lt_succ_self k),
    sum_of_carried (by omega), update_lowIn_turn hk] at hlow
  exact htop.cons (hand.cons (hhigh.cons hlow))

/-- The last conjunction is taken from the carry and from its ancilla. -/
theorem update_ancillas_back {k : ℕ} : Function.update (Function.update (ancillas a b (k + 1)) 0
    (carryIn a b (k + 1))) (k + 1) false = ancillas a b k := by
  funext j
  by_cases hj : j = k + 1
  · rw [hj, Function.update_self, ancillas_off (Nat.lt_succ_self k)]
  · rw [Function.update_of_ne hj]
    by_cases h0 : j = 0
    · rw [h0, Function.update_self, ancillas_zero]
    · rw [Function.update_of_ne h0, ancillas, ancillas, if_neg h0, if_neg h0]
      exact if_congr (by omega) rfl rfl

theorem ancillas_last (k : ℕ) : ancillas a b (k + 1) (k + 1) =
    ((a.getLsbD (k + 1) ^^ carryIn a b (k + 1)) && (b.getLsbD (k + 1) ^^ carryIn a b (k + 1))) := by
  rw [ancillas, if_neg (by omega), if_pos (Nat.le_refl _)]

/-- Without its conjunction a carry is the one below. -/
theorem carryIn_back (i : ℕ) : (carryIn a b (i + 1) ^^
    ((a.getLsbD i ^^ carryIn a b i) && (b.getLsbD i ^^ carryIn a b i))) = carryIn a b i := by
  rw [← carryIn_step i, Bool.xor_assoc, Bool.xor_self, Bool.xor_false]

theorem update_lowOut {k : ℕ} : Function.update (lowOut a b (k + 1)) (k + 1)
    ((a + b).getLsbD (k + 1)) = lowOut a b k := by
  funext i
  by_cases hi : i = k + 1
  · rw [hi, Function.update_self, lowOut, if_neg (by omega)]
  · rw [Function.update_of_ne hi]
    exact if_congr (by omega) rfl rfl

theorem lowOut_self (k : ℕ) : lowOut a b k k = (a.getLsbD k ^^ carryIn a b k) :=
  if_pos (Nat.le_refl _)

/-- **One turn of the loop downwards**: the carry loses its conjunction, which is measured away, and
    the bit takes its sum. -/
theorem moves_backward_step {k : ℕ} (h : k + 1 < n) (hm : 2 * n + (k + 1) < m) (hw : 0 < w) :
    Moves m w (gate .cx [2 * n + (k + 1), 2 * n] ::
        uncompute (k + 1) (n + (k + 1)) (2 * n + (k + 1)) 0 ++
        [gate .cx [2 * n, n + (k + 1)], gate .cx [n + (k + 1), k + 1]])
      (trio n (lowOut a b (k + 1)) (highUpTo a b (k + 1)) (ancillas a b (k + 1)))
      (trio n (lowOut a b k) (highUpTo a b k) (ancillas a b k)) := by
  have hcarry := @moves_anc_anc n m w (k + 1) (lowOut a b (k + 1)) (highUpTo a b (k + 1))
    (ancillas a b (k + 1)) hm
  rw [ancillas_zero, ancillas_last, carryIn_back] at hcarry
  have hun := @moves_uncompute_anc n m w (k + 1) (lowOut a b (k + 1)) (highUpTo a b (k + 1))
    (Function.update (ancillas a b (k + 1)) 0 (carryIn a b (k + 1))) h hm hw (by
      rw [Function.update_of_ne (Nat.succ_ne_zero k), ancillas_last, lowOut_self, highUpTo_self])
  rw [update_ancillas_back] at hun
  have hhigh := @moves_anc_high n m w (k + 1) 0 (lowOut a b (k + 1)) (highUpTo a b (k + 1))
    (ancillas a b k) h (by omega)
  rw [ancillas_zero, update_highUpTo_back] at hhigh
  have hlow := @moves_high_low n m w (k + 1) (lowOut a b (k + 1)) (highUpTo a b k)
    (ancillas a b k) h (by omega)
  rw [lowOut_self, highUpTo_above (Nat.lt_succ_self k), sum_of_carried h, update_lowOut] at hlow
  exact (hcarry.cons hun).append (hhigh.cons hlow)

theorem moves_backward (hw : 0 < w) : ∀ (k : ℕ), k < n → 2 * n + k < m →
    Moves m w (ancillaBackward n k)
      (trio n (lowOut a b k) (highUpTo a b k) (ancillas a b k))
      (trio n (lowOut a b 0) (highUpTo a b 0) (ancillas a b 0))
  | 0, _, _ => .nil
  | k + 1, h, hm => by
      have e : ancillaBackward n (k + 1) = (gate .cx [2 * n + (k + 1), 2 * n] ::
          uncompute (k + 1) (n + (k + 1)) (2 * n + (k + 1)) 0 ++
          [gate .cx [2 * n, n + (k + 1)], gate .cx [n + (k + 1), k + 1]]) ++
            ancillaBackward n k := by
        rw [ancillaBackward]
        simp only [List.cons_append, List.append_assoc, List.nil_append]
      rw [e]
      exact (moves_backward_step h hm hw).append (moves_backward hw k (by omega) (by omega))

/-! ## 6. The sum -/

theorem lowOut_zero : lowOut a b 0 0 = a.getLsbD 0 := by
  rw [lowOut_self, carryIn_zero, Bool.xor_false]

theorem highUpTo_zero : highUpTo a b 0 = b.getLsbD := by
  funext j
  rw [highUpTo]
  split_ifs with hj
  · obtain rfl : j = 0 := by omega
    rw [carryIn_zero, Bool.xor_false]
  · rfl

/-- The first carry, on the lowest ancilla. -/
theorem carryIn_one : carryIn a b 1 = (a.getLsbD 0 && b.getLsbD 0) := by
  rw [carryIn_succ 0, carryIn_zero, Bool.and_false, Bool.xor_false]

/-- The first gates put the carry into bit 1 where the loop wants it. -/
theorem moves_first (hn : 3 ≤ n) (hm : 2 * n < m) :
    Moves m w [gate .cx [n + (n - 1), n - 1], gate .r [2 * n], gate .ccx [0, n, 2 * n],
        gate .cx [2 * n, n + 1], gate .cx [2 * n, 1]]
      (trio n a.getLsbD b.getLsbD fun _ => false)
      (trio n (lowIn a b 0) (highUpTo a b 1) (ancillas a b 0)) := by
  have htop := @moves_high_low n m w (n - 1) a.getLsbD b.getLsbD (fun _ => false) (by omega) hm.le
  have hreset := @moves_reset_anc n m w 0 (Function.update a.getLsbD (n - 1)
    (a.getLsbD (n - 1) ^^ b.getLsbD (n - 1))) b.getLsbD (fun _ => false) hm rfl
  have hand := @moves_and_anc n m w 0 (Function.update a.getLsbD (n - 1)
    (a.getLsbD (n - 1) ^^ b.getLsbD (n - 1))) b.getLsbD (fun _ => false) (by omega) hm
  have hz : Function.update (fun _ => false) 0 (carryIn a b 1) = ancillas a b 0 := by
    funext j
    by_cases hj : j = 0
    · rw [hj, Function.update_self, ancillas_zero]
    · rw [Function.update_of_ne hj, ancillas_off (by omega)]
  rw [Bool.false_xor, Function.update_of_ne (show 0 ≠ n - 1 by omega), ← carryIn_one, hz] at hand
  have hhigh := @moves_anc_high n m w 1 0 (Function.update a.getLsbD (n - 1)
    (a.getLsbD (n - 1) ^^ b.getLsbD (n - 1))) (highUpTo a b 0) (ancillas a b 0) (by omega) hm
  rw [ancillas_zero, update_highUpTo, highUpTo_zero] at hhigh
  have hlow := @moves_anc_low n m w 1 0 (Function.update a.getLsbD (n - 1)
    (a.getLsbD (n - 1) ^^ b.getLsbD (n - 1))) (highUpTo a b 1) (ancillas a b 0) (by omega) hm
  have hx : Function.update (Function.update a.getLsbD (n - 1) (a.getLsbD (n - 1) ^^
      b.getLsbD (n - 1))) 1 (a.getLsbD 1 ^^ carryIn a b 1) = lowIn a b 0 := by
    funext i
    by_cases hi : i = 1
    · rw [hi, Function.update_self, lowIn, if_neg (by omega), if_pos (Nat.le_refl _)]
    · rw [Function.update_of_ne hi, lowIn, Function.update_apply]
      refine if_congr Iff.rfl rfl ?_
      split_ifs with hle
      · obtain rfl : i = 0 := by omega
        rw [carryIn_zero, Bool.xor_false]
      · rfl
  rw [ancillas_zero, Function.update_of_ne (show 1 ≠ n - 1 by omega), hx] at hlow
  exact htop.cons (hreset.cons (hand.cons (hhigh.cons hlow)))

/-- The last ones take it back; the lowest bit has no carry. -/
theorem moves_last (hn : 3 ≤ n) (hm : 2 * n < m) (hw : 0 < w) :
    Moves m w (uncompute 0 n (2 * n) 0 ++ [gate .cx [n, 0]])
      (trio n (lowOut a b 0) (highUpTo a b 0) (ancillas a b 0))
      (trio n (a + b).getLsbD b.getLsbD fun _ => false) := by
  have hun := @moves_uncompute_anc n m w 0 (lowOut a b 0) (highUpTo a b 0) (ancillas a b 0)
    (by omega) hm hw (by rw [ancillas_zero, lowOut_zero, highUpTo_zero, carryIn_one])
  have hz : Function.update (ancillas a b 0) 0 false = fun _ => false := by
    funext j
    by_cases hj : j = 0
    · rw [hj, Function.update_self]
    · rw [Function.update_of_ne hj, ancillas_off (by omega)]
  rw [hz, highUpTo_zero] at hun
  have hlow := @moves_high_low n m w 0 (lowOut a b 0) b.getLsbD (fun _ => false) (by omega) hm.le
  have hx : Function.update (lowOut a b 0) 0 (lowOut a b 0 0 ^^ b.getLsbD 0) =
      (a + b).getLsbD := by
    funext i
    by_cases hi : i = 0
    · rw [hi, Function.update_self, lowOut_self, sum_of_carried (by omega)]
    · rw [Function.update_of_ne hi, lowOut, if_neg (by omega)]
  rw [hx] at hlow
  rw [highUpTo_zero]
  exact hun.append hlow

/-- **The adder with measurements adds**, whatever is measured. -/
theorem moves_ancillaAdder (hn : 3 ≤ n) (hm : 3 * n ≤ m + 2) (hw : 0 < w) (a b : BitVec n) :
    Moves m w (ancillaAdder n) (trio n a.getLsbD b.getLsbD fun _ => false)
      (trio n (a + b).getLsbD b.getLsbD fun _ => false) := by
  have e : ancillaAdder n = [gate .cx [n + (n - 1), n - 1], gate .r [2 * n],
      gate .ccx [0, n, 2 * n], gate .cx [2 * n, n + 1], gate .cx [2 * n, 1]] ++
        (ancillaForward n (n - 3) ++ (ancillaTurn n ++ (ancillaBackward n (n - 3) ++
          (uncompute 0 n (2 * n) 0 ++ [gate .cx [n, 0]])))) := by
    simp only [ancillaAdder, List.append_assoc, List.cons_append, List.nil_append]
  rw [e]
  exact (moves_first hn (by omega)).append ((moves_forward hm _ (by omega)).append
    ((moves_turn (by omega) (by omega)).append
      ((moves_backward hw _ (by omega) (by omega)).append (moves_last hn (by omega) hw))))

end Sum

end GroverTax.Kickmix
