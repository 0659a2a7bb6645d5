/-
  File:      GroverTax/Kickmix/Keccak.lean
  Subject:   The hand-written permutation is Keccak-f[1600].

  A state of 25 lanes is the state array with `A[x, y, z]` in bit `z` of lane `5y + x`. One lemma
  for each loop of `keccak_f1600`, lane by lane: `array_theta`, `array_rhoPi`, `array_chi`,
  `array_iota`; then `array_keccakF1600`.
-/
import GroverTax.Kickmix.FiatShamir
import GroverTax.Lib.Keccak
import Mathlib.Tactic

namespace GroverTax.Kickmix

open GroverTax.Lib

/-! ## 1. Lanes -/

/-- **The state array of 25 lanes.** -/
def array (st : Lanes) : Keccak.StateArray := fun x y z =>
  (lane st (5 * y + x)).toBitVec.getLsbD z

section Lane

variable {st : Lanes} {i j : ℕ}

theorem lane_set (h : i < st.length) (v : UInt64) (j : ℕ) :
    lane (st.set i v) j = if j = i then v else lane st j := by
  unfold lane
  rw [List.getD_eq_getElem?_getD, List.getElem?_set]
  by_cases hj : i = j
  · rw [if_pos hj, if_pos h, if_pos hj.symm, Option.getD_some]
  · rw [if_neg hj, if_neg (Ne.symm hj), List.getD_eq_getElem?_getD]

/-- A loop that rewrites each lane of a list of places once, from the lane itself. -/
theorem lane_foldl_set (f : ℕ → UInt64 → UInt64) : ∀ (is : List ℕ) (st : Lanes), is.Nodup →
    (∀ i ∈ is, i < st.length) →
      (is.foldl (fun st i => st.set i (f i (lane st i))) st).length = st.length ∧
      ∀ j, lane (is.foldl (fun st i => st.set i (f i (lane st i))) st) j =
        if j ∈ is then f j (lane st j) else lane st j
  | [], st, _, _ => ⟨rfl, fun j => (if_neg List.not_mem_nil).symm⟩
  | i :: is, st, hnd, hlt => by
      obtain ⟨hi, hnd⟩ := List.nodup_cons.mp hnd
      obtain ⟨hlti, hlt⟩ := List.forall_mem_cons.mp hlt
      obtain ⟨hlen, hlane⟩ := lane_foldl_set f is (st.set i (f i (lane st i))) hnd (by
        rwa [List.length_set])
      rw [List.length_set] at hlen
      refine ⟨hlen, fun j => ?_⟩
      rw [List.foldl_cons, hlane j, lane_set hlti]
      by_cases hj : j = i
      · rw [if_neg (hj ▸ hi), if_pos hj, if_pos (hj ▸ List.mem_cons_self), hj]
      · rw [if_neg hj]
        exact if_congr (by rw [List.mem_cons, or_iff_right hj]) rfl rfl

theorem getLsbD_rotateLeft (v : UInt64) {n : ℕ} (h0 : 0 < n) (h : n < 64) (z : Fin 64) :
    (rotateLeft v n).toBitVec.getLsbD z = v.toBitVec.getLsbD (z - Fin.ofNat 64 n : Fin 64) := by
  have hz := z.isLt
  have hsub : ((z - Fin.ofNat 64 n : Fin 64) : ℕ) = (64 - n + z) % 64 := by
    rw [Fin.sub_def]
    show (64 - n % 64 + z) % 64 = _
    rw [Nat.mod_eq_of_lt h]
  have hl : (UInt64.ofNat n).toNat % 64 = n := by
    rw [UInt64.toNat_ofNat']
    omega
  have hr : (UInt64.ofNat (64 - n)).toNat % 64 = 64 - n := by
    rw [UInt64.toNat_ofNat']
    omega
  unfold rotateLeft
  rw [BitVec.getLsbD, BitVec.getLsbD, hsub]
  show ((v <<< UInt64.ofNat n) ||| (v >>> UInt64.ofNat (64 - n))).toNat.testBit z =
    v.toNat.testBit ((64 - n + z) % 64)
  rw [UInt64.toNat_or, UInt64.toNat_shiftLeft, UInt64.toNat_shiftRight, hl, hr, Nat.testBit_or,
    Nat.testBit_shiftRight, Nat.testBit_mod_two_pow, Nat.testBit_shiftLeft, decide_eq_true hz,
    Bool.true_and]
  by_cases hn : n ≤ z
  · have hhigh : v.toNat.testBit (64 - n + z) = false :=
      Nat.testBit_lt_two_pow (v.toNat_lt.trans_le (Nat.pow_le_pow_right (by decide) (by omega)))
    rw [decide_eq_true hn, Bool.true_and, hhigh, Bool.or_false]
    congr 1
    omega
  · rw [decide_eq_false hn, Bool.false_and, Bool.false_or]
    congr 1
    omega

end Lane

/-! ## 2. The step mappings -/

section Steps

variable {st : Lanes} {i j : ℕ}

/-- The column parities `bc`, and what each lane of a column takes. -/
def columns (st : Lanes) : Lanes := (List.range 5).map fun i =>
  lane st i ^^^ lane st (i + 5) ^^^ lane st (i + 10) ^^^ lane st (i + 15) ^^^ lane st (i + 20)

def thetaTerm (st : Lanes) (i : ℕ) : UInt64 :=
  lane (columns st) ((i + 4) % 5) ^^^ rotateLeft (lane (columns st) ((i + 1) % 5)) 1

theorem lane_columns (h : i < 5) : lane (columns st) i =
    lane st i ^^^ lane st (i + 5) ^^^ lane st (i + 10) ^^^ lane st (i + 15) ^^^ lane st (i + 20) := by
  rw [columns, lane, List.getD_eq_getElem _ _ (by simpa using h), List.getElem_map,
    List.getElem_range]

/-- The places of `theta`, in its order. -/
def thetaPlaces : List ℕ := (List.range 5).flatMap fun i => [0, 5, 10, 15, 20].map (· + i)

theorem theta_eq (st : Lanes) : theta st =
    thetaPlaces.foldl (fun s k => s.set k (lane s k ^^^ thetaTerm st (k % 5))) st := by
  rw [thetaPlaces, List.foldl_flatMap]
  refine List.foldl_ext _ _ _ fun s i hi => ?_
  have hi := List.mem_range.mp hi
  rw [List.foldl_map]
  refine List.foldl_ext _ _ _ fun s' j hj => ?_
  have hmod : (j + i) % 5 = i := by
    simp only [List.mem_cons, List.not_mem_nil, or_false] at hj
    omega
  rw [hmod]
  rfl

/-- **Theta, lane by lane.** -/
theorem lane_theta (h : st.length = 25) : (theta st).length = 25 ∧
    ∀ j < 25, lane (theta st) j = lane st j ^^^ thetaTerm st (j % 5) := by
  obtain ⟨hlen, hlane⟩ := lane_foldl_set (fun k v => v ^^^ thetaTerm st (k % 5)) thetaPlaces st
    (by decide) (by rw [h]; decide)
  rw [theta_eq]
  refine ⟨hlen.trans h, fun j hj => (hlane j).trans (if_pos ?_)⟩
  revert j
  decide

theorem array_apply (st : Lanes) (x y : Fin 5) (z : Fin 64) :
    array st x y z = (lane st (5 * y + x)).toBitVec.getLsbD z := rfl

theorem getLsbD_columns (st : Lanes) (x : Fin 5) (z : Fin 64) :
    (lane (columns st) x).toBitVec.getLsbD z = Keccak.parity (array st) x z := by
  rw [lane_columns x.isLt]
  simp only [UInt64.toBitVec_xor, BitVec.getLsbD_xor, Keccak.parity, array_apply]
  congr 1 <;> simp [Nat.add_comm]

theorem array_theta (h : st.length = 25) : array (theta st) = Keccak.theta (array st) := by
  have hsub : ∀ x : Fin 5, ((x - 1 : Fin 5) : ℕ) = (x + 4) % 5 := by decide
  have hadd : ∀ x : Fin 5, ((x + 1 : Fin 5) : ℕ) = (x + 1) % 5 := by decide
  funext x y z
  have hx := x.isLt
  have hmod : (5 * (y : ℕ) + x) % 5 = x := by omega
  rw [array_apply, (lane_theta h).2 _ (by omega), hmod, thetaTerm, ← hsub, ← hadd,
    UInt64.toBitVec_xor, UInt64.toBitVec_xor, BitVec.getLsbD_xor, BitVec.getLsbD_xor,
    getLsbD_rotateLeft _ (by decide) (by decide), getLsbD_columns, getLsbD_columns]
  rfl

/-- One turn of the in-place loop of rho and pi. -/
def rhoPiStep (p : Lanes × UInt64) (i : ℕ) : Lanes × UInt64 :=
  (p.1.set (KECCAK_PILN.getD i 0) (rotateLeft p.2 (KECCAK_ROTC.getD i 0)),
    lane p.1 (KECCAK_PILN.getD i 0))

/-- The lane that turn `i` moves. -/
def rhoPiSource : ℕ → ℕ
  | 0 => 1
  | i + 1 => KECCAK_PILN.getD i 0

/-- After `n` turns: `n` places hold the rotated lane before them, the lane under way is the next
    one. -/
structure RhoPiInv (st : Lanes) (n : ℕ) (p : Lanes × UInt64) : Prop where
  length : p.1.length = 25
  under : p.2 = lane st (rhoPiSource n)
  moved : ∀ i < n, lane p.1 (KECCAK_PILN.getD i 0) =
    rotateLeft (lane st (rhoPiSource i)) (KECCAK_ROTC.getD i 0)
  rest : ∀ j, (∀ i < n, j ≠ KECCAK_PILN.getD i 0) → lane p.1 j = lane st j

theorem KECCAK_PILN_lt : ∀ i < 24, KECCAK_PILN.getD i 0 < 25 := by decide

theorem KECCAK_PILN_ne : ∀ n < 24, ∀ i < n, KECCAK_PILN.getD n 0 ≠ KECCAK_PILN.getD i 0 := by decide

theorem RhoPiInv.step {n : ℕ} {p : Lanes × UInt64} (h : RhoPiInv st n p) (hn : n < 24) :
    RhoPiInv st (n + 1) (rhoPiStep p n) := by
  have hlt : KECCAK_PILN.getD n 0 < p.1.length := h.length ▸ KECCAK_PILN_lt n hn
  have hne := KECCAK_PILN_ne n hn
  refine ⟨(List.length_set ..).trans h.length, h.rest _ hne, fun i hi => ?_, fun j hj => ?_⟩
  · rw [rhoPiStep, lane_set hlt]
    by_cases hin : i = n
    · rw [hin, if_pos rfl, h.under]
    · have hi' : i < n := by omega
      rw [if_neg (hne i hi').symm, h.moved i hi']
  · rw [rhoPiStep, lane_set hlt, if_neg (hj n (Nat.lt_succ_self n)),
      h.rest j fun i hi => hj i (Nat.lt_succ_of_lt hi)]

theorem rhoPiInv (h : st.length = 25) : ∀ n ≤ 24,
    RhoPiInv st n ((List.range n).foldl rhoPiStep (st, lane st 1))
  | 0, _ => ⟨h, rfl, fun i hi => absurd hi (Nat.not_lt_zero i), fun _ _ => rfl⟩
  | n + 1, hn => by
      rw [List.range_succ, List.foldl_append]
      exact (rhoPiInv h n (by omega)).step hn

/-- The tables are the walk of the specification: turn `i` moves the lane of step `i` to the place
    of step `i + 1`. -/
theorem rhoPi_tables : ∀ i < 24,
    KECCAK_PILN.getD i 0 =
        5 * ((Keccak.rhoWalk (i + 1)).2 : ℕ) + (Keccak.rhoWalk (i + 1)).1 ∧
      rhoPiSource i = 5 * ((Keccak.rhoWalk i).2 : ℕ) + (Keccak.rhoWalk i).1 ∧
      KECCAK_ROTC.getD i 0 = (i + 1) * (i + 2) / 2 % 64 ∧ 0 < KECCAK_ROTC.getD i 0 ∧
      ((Keccak.rhoWalk (i + 1)).1 + 3 * (Keccak.rhoWalk (i + 1)).2, (Keccak.rhoWalk (i + 1)).1) =
        Keccak.rhoWalk i := by
  decide +kernel

theorem rhoPi_eq (st : Lanes) : rhoPi st = ((List.range 24).foldl rhoPiStep (st, lane st 1)).1 := rfl

theorem array_rhoPi (h : st.length = 25) :
    array (rhoPi st) = Keccak.pi (Keccak.rho (array st)) := by
  have hinv := rhoPiInv h 24 (le_refl 24)
  funext x y z
  rw [rhoPi_eq, array_apply, Keccak.pi]
  rcases Keccak.rhoWalk_cover x y with h0 | ⟨i, hi, hxy⟩
  · obtain ⟨rfl, rfl⟩ := Prod.mk.inj h0
    rw [hinv.rest _ (by decide)]
    exact (Keccak.rho_zero (array st) z).symm
  · have hi := List.mem_range.mp hi
    obtain ⟨hdst, hsrc, hrot, hpos, hpi⟩ := rhoPi_tables i hi
    rw [← hxy] at hdst hpi
    have hplace : 5 * (y : ℕ) + x = KECCAK_PILN.getD i 0 := hdst.symm
    have hwalk : (x + 3 * y, x) = Keccak.rhoWalk i := hpi
    have hlt : KECCAK_ROTC.getD i 0 < 64 := hrot ▸ Nat.mod_lt _ (by decide)
    have hoff : Fin.ofNat 64 (KECCAK_ROTC.getD i 0) = Fin.ofNat 64 ((i + 1) * (i + 2) / 2) := by
      rw [hrot]
      exact Fin.ext (Nat.mod_mod _ _)
    rw [hplace, hinv.moved i hi, getLsbD_rotateLeft _ hpos hlt, hoff, hsrc,
      Keccak.rho_walk (array st) hi hwalk, array_apply, ← hwalk]

/-- One row of chi: `bc` is the row before it. -/
def chiRow (st : Lanes) (k : ℕ) : Lanes :=
  let bc := (st.drop k).take 5
  (List.range 5).foldl (fun st i =>
    st.set (k + i) (lane st (k + i) ^^^ (~~~(lane bc ((i + 1) % 5)) &&& lane bc ((i + 2) % 5)))) st

theorem chi_eq (st : Lanes) : chi st = [0, 5, 10, 15, 20].foldl chiRow st := rfl

/-- What chi makes of lane `j`. -/
def chiLane (st : Lanes) (j : ℕ) : UInt64 :=
  lane st j ^^^ (~~~(lane st (5 * (j / 5) + (j + 1) % 5)) &&& lane st (5 * (j / 5) + (j + 2) % 5))

theorem lane_row {k : ℕ} (h : i < 5) : lane ((st.drop k).take 5) i = lane st (k + i) := by
  unfold lane
  rw [List.getD_eq_getElem?_getD, List.getElem?_take_of_lt h, List.getElem?_drop,
    List.getD_eq_getElem?_getD]

theorem lane_chiRow (h : st.length = 25) {k : ℕ} (hk : k % 5 = 0) (hlt : k < 25) :
    (chiRow st k).length = 25 ∧
      ∀ j, lane (chiRow st k) j = if 5 * (j / 5) = k then chiLane st j else lane st j := by
  have e : chiRow st k = ((List.range 5).map (k + ·)).foldl (fun s m => s.set m (lane s m ^^^
      (~~~(lane ((st.drop k).take 5) ((m - k + 1) % 5)) &&&
        lane ((st.drop k).take 5) ((m - k + 2) % 5)))) st := by
    rw [List.foldl_map, chiRow]
    refine List.foldl_ext _ _ _ fun s i _ => ?_
    rw [Nat.add_sub_cancel_left]
  obtain ⟨hlen, hlane⟩ := lane_foldl_set (fun m v => v ^^^
    (~~~(lane ((st.drop k).take 5) ((m - k + 1) % 5)) &&&
      lane ((st.drop k).take 5) ((m - k + 2) % 5))) ((List.range 5).map (k + ·)) st
    (List.nodup_range.map fun _ _ hab => Nat.add_left_cancel hab) (by
      simp only [List.forall_mem_map, List.mem_range]
      omega)
  rw [e]
  refine ⟨hlen.trans h, fun j => (hlane j).trans ?_⟩
  by_cases hj : 5 * (j / 5) = k
  · have hmem : j ∈ (List.range 5).map (k + ·) :=
      List.mem_map.mpr ⟨j - k, List.mem_range.mpr (by omega), by omega⟩
    have h1 : (j - k + 1) % 5 = (j + 1) % 5 := by omega
    have h2 : (j - k + 2) % 5 = (j + 2) % 5 := by omega
    rw [if_pos hmem, if_pos hj, h1, h2, lane_row (Nat.mod_lt _ (by decide)),
      lane_row (Nat.mod_lt _ (by decide)), chiLane, hj]
  · have hmem : j ∉ (List.range 5).map (k + ·) := by
      intro hm
      obtain ⟨i, hi, rfl⟩ := List.mem_map.mp hm
      have := List.mem_range.mp hi
      omega
    rw [if_neg hmem, if_neg hj]

/-- **Chi, lane by lane**: each row is rewritten once, from itself. -/
theorem lane_chiRows : ∀ (ks : List ℕ) (st : Lanes), st.length = 25 → ks.Nodup →
    (∀ k ∈ ks, k % 5 = 0 ∧ k < 25) → (ks.foldl chiRow st).length = 25 ∧
      ∀ j, lane (ks.foldl chiRow st) j = if 5 * (j / 5) ∈ ks then chiLane st j else lane st j
  | [], st, h, _, _ => ⟨h, fun j => (if_neg List.not_mem_nil).symm⟩
  | k :: ks, st, h, hnd, hks => by
      obtain ⟨hk, hnd⟩ := List.nodup_cons.mp hnd
      obtain ⟨⟨hk5, hlt⟩, hks⟩ := List.forall_mem_cons.mp hks
      obtain ⟨hlen, hrow⟩ := lane_chiRow h hk5 hlt
      obtain ⟨hlen', hrest⟩ := lane_chiRows ks _ hlen hnd hks
      refine ⟨hlen', fun j => ?_⟩
      rw [List.foldl_cons, hrest j]
      by_cases hj : 5 * (j / 5) = k
      · rw [if_neg (hj ▸ hk), if_pos (hj ▸ List.mem_cons_self), hrow, if_pos hj]
      · have hother : ∀ m, m / 5 = j / 5 → lane (chiRow st k) m = lane st m := fun m hm => by
          rw [hrow, if_neg (hm ▸ hj)]
        have hchi : chiLane (chiRow st k) j = chiLane st j := by
          rw [chiLane, hother j rfl, hother _ (by omega), hother _ (by omega), chiLane]
        rw [hchi, hother j rfl]
        exact if_congr (by rw [List.mem_cons, or_iff_right hj]) rfl rfl

theorem length_chi (h : st.length = 25) : (chi st).length = 25 :=
  (lane_chiRows _ st h (by decide) (by decide)).1

theorem array_chi (h : st.length = 25) : array (chi st) = Keccak.chi (array st) := by
  have hadd1 : ∀ x : Fin 5, ((x + 1 : Fin 5) : ℕ) = (x + 1) % 5 := by decide
  have hadd2 : ∀ x : Fin 5, ((x + 2 : Fin 5) : ℕ) = (x + 2) % 5 := by decide
  funext x y z
  have hx := x.isLt
  have hy := y.isLt
  have hdiv : (5 * (y : ℕ) + x) / 5 = y := by omega
  have hmem : 5 * ((5 * (y : ℕ) + x) / 5) ∈ [0, 5, 10, 15, 20] := by
    rw [hdiv]
    interval_cases (y : ℕ) <;> decide
  have h1 : (5 * (y : ℕ) + x + 1) % 5 = (x + 1 : Fin 5) := by rw [hadd1]; omega
  have h2 : (5 * (y : ℕ) + x + 2) % 5 = (x + 2 : Fin 5) := by rw [hadd2]; omega
  rw [chi_eq, array_apply, (lane_chiRows _ st h (by decide) (by decide)).2, if_pos hmem, chiLane,
    hdiv, h1, h2, UInt64.toBitVec_xor, UInt64.toBitVec_and, UInt64.toBitVec_not,
    BitVec.getLsbD_xor, BitVec.getLsbD_and, BitVec.getLsbD_not, decide_eq_true z.isLt,
    Bool.true_and, Keccak.chi, Bool.xor_true]
  rfl

/-- The round constants are those of the shift register. -/
theorem KECCAK_RC_eq : (List.range 24).map Keccak.RC =
    KECCAK_RC.map fun c => (List.range 64).map c.toBitVec.getLsbD := by
  decide +kernel

theorem array_iota (h : st.length = 25) {i : ℕ} (hi : i < 24) :
    array (iota (KECCAK_RC.getD i 0) st) = Keccak.iota i (array st) := by
  have hrc : Keccak.RC i = (List.range 64).map (KECCAK_RC.getD i 0).toBitVec.getLsbD := by
    have e := congrArg (·[i]?) KECCAK_RC_eq
    have hlt : i < KECCAK_RC.length := hi
    simp only [List.getElem?_map, List.getElem?_range hi, List.getElem?_eq_getElem hlt,
      Option.map_some, Option.some.injEq] at e
    rw [e, List.getD_eq_getElem _ _ hlt]
  funext x y z
  have hz := z.isLt
  have hzero : 5 * (y : ℕ) + x = 0 ↔ (x, y) = ((0, 0) : Fin 5 × Fin 5) := by
    rw [Prod.mk.injEq, Fin.ext_iff, Fin.ext_iff]
    show _ ↔ (x : ℕ) = 0 ∧ (y : ℕ) = 0
    omega
  have hbit : (Keccak.RC i).getD z false = (KECCAK_RC.getD i 0).toBitVec.getLsbD z := by
    rw [hrc, List.getD_eq_getElem _ _ (by simp), List.getElem_map, List.getElem_range]
  rw [array_apply, iota, lane_set (by omega), Keccak.iota, hbit]
  by_cases h0 : (x, y) = ((0, 0) : Fin 5 × Fin 5)
  · rw [if_pos (hzero.mpr h0), if_pos h0, UInt64.toBitVec_xor, BitVec.getLsbD_xor, array_apply,
      hzero.mpr h0]
  · rw [if_neg fun hn => h0 (hzero.mp hn), if_neg h0, array_apply]

/-! ## 3. The permutation -/

theorem length_rhoPi (h : st.length = 25) : (rhoPi st).length = 25 :=
  (rhoPiInv h 24 (le_refl 24)).length

/-- One round of the permutation. -/
theorem array_round (h : st.length = 25) (hi : i < 24) :
    (iota (KECCAK_RC.getD i 0) (chi (rhoPi (theta st)))).length = 25 ∧
      array (iota (KECCAK_RC.getD i 0) (chi (rhoPi (theta st)))) = Keccak.round (array st) i := by
  have h1 := (lane_theta h).1
  have h2 := length_rhoPi h1
  have h3 := length_chi h2
  refine ⟨(List.length_set ..).trans h3, ?_⟩
  rw [array_iota h3 hi, array_chi h2, array_rhoPi h1, array_theta h]
  rfl

theorem array_rounds : ∀ is : List ℕ, (∀ i ∈ is, i < 24) → ∀ st : Lanes,
    st.length = 25 →
    ((is.map (KECCAK_RC.getD · 0)).foldl (fun st rc => iota rc (chi (rhoPi (theta st)))) st).length =
        25 ∧
      array ((is.map (KECCAK_RC.getD · 0)).foldl (fun st rc => iota rc (chi (rhoPi (theta st)))) st) =
        is.foldl Keccak.round (array st)
  | [], _, _, h => ⟨h, rfl⟩
  | i :: is, his, st, h => by
      obtain ⟨hi, his⟩ := List.forall_mem_cons.mp his
      obtain ⟨hlen, harr⟩ := array_round h hi
      rw [List.map_cons, List.foldl_cons, List.foldl_cons, ← harr]
      exact array_rounds is his _ hlen

/-- **The permutation is Keccak-f[1600]**, on arrays. -/
theorem array_keccakF1600 (h : st.length = 25) : (keccakF1600 st).length = 25 ∧
    array (keccakF1600 st) = (List.range 24).foldl Keccak.round (array st) :=
  array_rounds (List.range 24) (fun _ => List.mem_range.mp) st h

end Steps

end GroverTax.Kickmix
