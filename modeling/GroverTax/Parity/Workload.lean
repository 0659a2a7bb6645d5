/-
  File:      GroverTax/Parity/Workload.lean
  Subject:   The workload that src/WORKLOAD.md pins: the adders iadd8.kmx, iadd64.kmx and
             iadd256.kmx, as the text of one family, run `k` times.

  * `iaddText` -- the text for `n` bits, with the gates `k` times over;
  * `isAdder_iadd` -- for src/python/grover_tax/kmx.py the circuit is an adder;
  * `addsAlways_iadd` -- for src/kickmix/src/lib.rs it adds `k` times, whatever is measured;
  * **`workload_statement`** -- `run_statement` accepts it for every hash, with these counts.
-/
import GroverTax.Gtv1.Iadd
import GroverTax.Kickmix.StatementComplete
import GroverTax.Parity.Render
import GroverTax.Python.KFold

namespace GroverTax.Parity

open GroverTax.Lib GroverTax.Gtv1 GroverTax.Kickmix
open GroverTax.Python (KmxCircuit Item circuitOf circuitOf_eq parseKmx registerLayout ACC_REGISTER
  OFFSET_REGISTER encodePair IsAdder placed WIRE_MAX)

/-! ## 1. The text -/

/-- The gates, `k` times over. -/
def iaddGates (n k : ℕ) : List Gate := (List.replicate k (iadd n)).flatten

/-- Two registers of `n` qubits, then the gates. -/
def iaddItems (n k : ℕ) : List Item :=
  registerItems 0 (List.range n) ++ registerItems 1 (List.range' n n) ++
    (iaddGates n k).map itemOf

def iaddText (comments : List (List Char)) (n k : ℕ) : List Char :=
  itemText comments (iaddItems n k)

section Items

variable {n k : ℕ}

theorem mem_iaddGates {g : Gate} (h : g ∈ iaddGates n k) : g ∈ iadd n := by
  obtain ⟨l, hl, hg⟩ := List.mem_flatten.mp h
  rwa [List.eq_of_mem_replicate hl] at hg

theorem printable_iadd (hn : 3 ≤ n) (hmax : n ≤ 2 ^ 15) {g : Gate} (h : g ∈ iadd n) :
    Printable g := by
  obtain ⟨hp, hne⟩ := live_iadd hn h
  refine ⟨hne, hp.inRange.opcode, hp.canonical, fun w hw => ?_⟩
  have := hp.inRange.wires w hw
  unfold WIRE_MAX
  omega

/-- The members of the two registers are the wires. -/
theorem mem_registers {q : ℕ} : q ∈ List.range n ∨ q ∈ List.range' n n ↔ q < 2 * n := by
  rw [List.mem_range, List.mem_range'_1]
  omega

theorem fitsBoth_registerItems {r : ℕ} {members : List ℕ} (hr : r < usizeSize)
    (hm : ∀ q ∈ members, q ≤ WIRE_MAX) : ∀ item ∈ registerItems r members, FitsBoth item := by
  intro item hi
  rcases List.mem_append.mp hi with hi | hi
  · obtain ⟨q, hq, rfl⟩ := List.mem_map.mp hi
    refine ⟨fun q' h => ?_, fun r' h => ?_⟩
    · simp only [Item.targets, List.mem_cons, Target.qubit.injEq, reduceCtorEq, List.not_mem_nil,
        or_false] at h
      exact h ▸ hm q hq
    · simp only [Item.targets, List.mem_cons, Target.register.injEq, reduceCtorEq,
        List.not_mem_nil, or_false, false_or] at h
      exact h ▸ hr
  · rw [List.mem_singleton] at hi
    subst hi
    refine ⟨fun q' h => ?_, fun r' h => ?_⟩
    · simp [Item.targets] at h
    · simp only [Item.targets, List.mem_cons, Target.register.injEq, List.not_mem_nil,
        or_false] at h
      exact h ▸ hr

theorem fitsBoth_iadd (hn : 3 ≤ n) (hmax : n ≤ 2 ^ 15) :
    ∀ item ∈ iaddItems n k, FitsBoth item := by
  intro item hi
  have hlt : ∀ q, q < 2 * n → q ≤ WIRE_MAX := fun q hq => by
    unfold WIRE_MAX
    omega
  rcases List.mem_append.mp hi with hi | hi
  · rcases List.mem_append.mp hi with hi | hi
    · exact fitsBoth_registerItems (by decide) (fun q hq => hlt q (mem_registers.mp (Or.inl hq)))
        item hi
    · exact fitsBoth_registerItems (by decide) (fun q hq => hlt q (mem_registers.mp (Or.inr hq)))
        item hi
  · obtain ⟨g, hg, rfl⟩ := List.mem_map.mp hi
    exact fitsBoth_itemOf (printable_iadd hn hmax (mem_iaddGates hg))

theorem gates_registerItems (r : ℕ) (members : List ℕ) :
    (registerItems r members).filterMap Item.gate = [] := by
  rw [List.filterMap_eq_nil_iff]
  intro item hi
  rcases List.mem_append.mp hi with hi | hi
  · obtain ⟨q, -, rfl⟩ := List.mem_map.mp hi
    rfl
  · rw [List.mem_singleton.mp hi]
    rfl

theorem gates_iaddItems (hn : 3 ≤ n) (hmax : n ≤ 2 ^ 15) :
    (iaddItems n k).filterMap Item.gate = iaddGates n k := by
  rw [iaddItems, List.filterMap_append, List.filterMap_append, gates_registerItems,
    gates_registerItems, List.nil_append, List.nil_append,
    filterMap_gate_itemOf fun g hg => printable_iadd hn hmax (mem_iaddGates hg)]

/-- The members come one after the other. -/
theorem getElem?_declare_appends (r k : ℕ) : ∀ (members : List ℕ)
    (m : Std.ExtTreeMap ℕ (List ℕ)),
    ((members.map fun q => Item.append q r).foldl Item.declare m)[k]? =
      if k = r ∧ members ≠ [] then some (m[r]?.getD [] ++ members) else m[k]?
  | [], m => by simp
  | q :: members, m => by
      rw [List.map_cons, List.foldl_cons, getElem?_declare_appends r k members]
      show (if _ then some ((entryPush m r q)[r]?.getD [] ++ members) else (entryPush m r q)[k]?) = _
      rw [entryPush, Std.ExtTreeMap.getElem?_alter_self, Option.getD_some,
        Std.ExtTreeMap.getElem?_alter, List.append_assoc, List.singleton_append]
      by_cases hk : k = r
      · subst hk
        cases members <;> simp
      · have hc : compare r k ≠ .eq := fun e => hk (compare_eq_iff_eq.mp e).symm
        rw [if_neg fun h => hk h.1, if_neg hc, if_neg fun h => hk h.1]

/-- A register that is declared after its members, and not before. -/
theorem declare_registerItems {r : ℕ} (members : List ℕ) {m : Std.ExtTreeMap ℕ (List ℕ)}
    (hm : m[r]? = none) : (registerItems r members).foldl Item.declare m = m.insert r members := by
  refine Std.ExtTreeMap.ext_getElem? fun k => ?_
  rw [registerItems, List.foldl_append, List.foldl_cons, List.foldl_nil]
  show (entryOrDefault _ r)[k]? = _
  rw [entryOrDefault, Std.ExtTreeMap.getElem?_alter, Std.ExtTreeMap.getElem?_insert,
    getElem?_declare_appends, getElem?_declare_appends, hm, Option.getD_none, List.nil_append]
  by_cases hk : k = r
  · subst hk
    rw [if_pos (compare_eq_iff_eq.mpr rfl), if_pos (compare_eq_iff_eq.mpr rfl)]
    by_cases hne : members = []
    · rw [hne]
      simp
    · rw [if_pos ⟨rfl, hne⟩, Option.getD_some]
  · have hc : compare r k ≠ .eq := fun e => hk (compare_eq_iff_eq.mp e).symm
    rw [if_neg hc, if_neg hc, if_neg fun h => hk h.1]

/-- A gate declares nothing. -/
theorem declare_gates (gs : List Gate) (m : Std.ExtTreeMap ℕ (List ℕ)) :
    (gs.map itemOf).foldl Item.declare m = m := by
  induction gs generalizing m with
  | nil => rfl
  | cons g gs ih =>
    rw [List.map_cons, List.foldl_cons, ih]
    unfold itemOf
    split_ifs <;> rfl

/-- The registers of the workload. -/
def iaddRegisters (n : ℕ) : Std.ExtTreeMap ℕ (List ℕ) :=
  ((∅ : Std.ExtTreeMap ℕ (List ℕ)).insert 0 (List.range n)).insert 1 (List.range' n n)

theorem toList_iaddRegisters (n : ℕ) :
    (iaddRegisters n).toList = [(0, List.range n), (1, List.range' n n)] := rfl

theorem declare_iaddItems (n k : ℕ) :
    (iaddItems n k).foldl Item.declare ∅ = iaddRegisters n := by
  have h0 : (∅ : Std.ExtTreeMap ℕ (List ℕ))[0]? = none := rfl
  have h1 : ((∅ : Std.ExtTreeMap ℕ (List ℕ)).insert 0 (List.range n))[1]? = none := rfl
  rw [iaddItems, List.foldl_append, List.foldl_append, declare_registerItems _ h0,
    declare_registerItems _ h1, declare_gates, iaddRegisters]

theorem lt_of_mem_registerItems {r q : ℕ} {members : List ℕ} {item : Item}
    (hi : item ∈ registerItems r members) (hq : .qubit q ∈ item.targets) : q ∈ members := by
  rcases List.mem_append.mp hi with hi | hi
  · obtain ⟨q', hq', rfl⟩ := List.mem_map.mp hi
    simp only [Item.targets, List.mem_cons, Target.qubit.injEq, reduceCtorEq, List.not_mem_nil,
      or_false] at hq
    exact hq ▸ hq'
  · rw [List.mem_singleton.mp hi] at hq
    simp [Item.targets] at hq

/-- Every qubit of the text is a wire of the two registers. -/
theorem lt_of_mem_iaddItems (hn : 3 ≤ n) (hmax : n ≤ 2 ^ 15) {item : Item}
    (hi : item ∈ iaddItems n k) {q : ℕ} (hq : .qubit q ∈ item.targets) : q < 2 * n := by
  rcases List.mem_append.mp hi with hi | hi
  · rcases List.mem_append.mp hi with hi | hi
    · exact mem_registers.mp (Or.inl (lt_of_mem_registerItems hi hq))
    · exact mem_registers.mp (Or.inr (lt_of_mem_registerItems hi hq))
  · obtain ⟨g, hg, rfl⟩ := List.mem_map.mp hi
    have hg := mem_iaddGates hg
    exact (live_iadd hn hg).plain.inRange.wires q
      ((Python.item_used (gate_itemOf (printable_iadd hn hmax hg)) q).mpr hq)

theorem numQubits_iaddItems (hn : 3 ≤ n) (hmax : n ≤ 2 ^ 15) :
    (circuitOf (iaddItems n k)).numQubits = 2 * n := by
  refine Nat.le_antisymm ?_ ?_
  · have hle : ((iaddItems n k).flatMap Item.targets).foldl Python.maxTarget (-1) ≤ 2 * n - 1 := by
      refine Python.foldl_maxTarget_le_iff.mpr ⟨by omega, fun q hq => ?_⟩
      obtain ⟨item, hi, hq⟩ := List.mem_flatMap.mp hq
      have := lt_of_mem_iaddItems hn hmax hi hq
      omega
    rw [circuitOf_eq]
    dsimp only
    omega
  · have hmem : Item.append (2 * n - 1) 1 ∈ iaddItems n k :=
      List.mem_append_left _ (List.mem_append_right _ (List.mem_append_left _
        (List.mem_map.mpr ⟨2 * n - 1, List.mem_range'_1.mpr (by omega), rfl⟩)))
    have := Python.lt_numQubits hmem (q := 2 * n - 1) List.mem_cons_self
    omega

end Items

/-! ## 2. The sum -/

section Sum

variable {n k x y : ℕ}

/-- The wires that hold `x` and `y`. -/
def pair (n x y : ℕ) : ℕ → Bool := join n (BitVec.ofNat n x).getLsbD (BitVec.ofNat n y).getLsbD

theorem pair_low {i : ℕ} (h : i < n) : pair n x y i = x.testBit i := by
  rw [pair, join_low h, BitVec.getLsbD_ofNat, decide_eq_true h, Bool.true_and]

theorem pair_high {i : ℕ} (h : i < n) : pair n x y (n + i) = y.testBit i := by
  rw [pair, join_high, BitVec.getLsbD_ofNat, decide_eq_true h, Bool.true_and]

theorem pair_others {i : ℕ} (h : 2 * n ≤ i) : pair n x y i = false := by
  rw [pair, join, if_neg (by omega), BitVec.getLsbD_of_ge _ _ (by omega)]

theorem pair_mod (n x y : ℕ) : pair n (x % 2 ^ n) y = pair n x y := by
  have e : BitVec.ofNat n (x % 2 ^ n) = BitVec.ofNat n x :=
    BitVec.eq_of_toNat_eq (by rw [BitVec.toNat_ofNat, BitVec.toNat_ofNat, Nat.mod_mod])
  rw [pair, pair, e]

/-- **`k` times the adder adds `k` times.** -/
theorem simulate_iaddGates (hn : 3 ≤ n) (y : ℕ) : ∀ (k x : ℕ),
    simulate (iaddGates n k) (pair n x y) = pair n (x + k * y) y
  | 0, x => by
      rw [Nat.zero_mul, Nat.add_zero]
      rfl
  | k + 1, x => by
      have hstep : simulate (iadd n) (pair n x y) = pair n (x + y) y := by
        rw [pair, simulate_iadd hn, ← BitVec.ofNat_add]
        rfl
      have hflat : iaddGates n (k + 1) = iadd n ++ iaddGates n k := by
        rw [iaddGates, List.replicate_succ, List.flatten_cons]
        rfl
      rw [hflat, simulate_append, hstep, simulate_iaddGates hn y k, Nat.add_assoc,
        Nat.add_comm y, ← Nat.succ_mul]

end Sum

/-! ## 3. The circuit in Python -/

section Python

variable {n k x y : ℕ}

theorem registerLayout_iadd (n k : ℕ) : registerLayout (circuitOf (iaddItems n k)) =
    [(ACC_REGISTER, List.range n), (OFFSET_REGISTER, List.range' n n)] := by
  rw [registerLayout, circuitOf_eq]
  dsimp only
  have hdigits : Nat.toDigits 10 0 = ['0'] ∧ Nat.toDigits 10 1 = ['1'] := by decide
  rw [declare_iaddItems, toList_iaddRegisters, List.map_cons, List.map_cons, List.map_nil,
    hdigits.1, hdigits.2]
  rfl

theorem mem_zipIdx_range' {a n : ℕ} {p : ℕ × ℕ} :
    p ∈ (List.range' a n).zipIdx ↔ p.2 < n ∧ p.1 = a + p.2 := by
  rw [List.mem_zipIdx_iff_getElem?, List.getElem?_eq_some_iff]
  constructor
  · rintro ⟨hi, e⟩
    rw [List.length_range'] at hi
    rw [List.getElem_range', Nat.one_mul] at e
    exact ⟨hi, e.symm⟩
  · rintro ⟨hi, e⟩
    refine ⟨by rwa [List.length_range'], ?_⟩
    rw [List.getElem_range', Nat.one_mul, e]

/-- The bits that the encoder writes. -/
theorem writes_placed_iadd (n k x y : ℕ) : writes (fun _ => false)
    (placed (registerLayout (circuitOf (iaddItems n k))) [(ACC_REGISTER, x), (OFFSET_REGISTER, y)])
      = pair n x y := by
  have hplaced : placed (registerLayout (circuitOf (iaddItems n k)))
      [(ACC_REGISTER, x), (OFFSET_REGISTER, y)] =
        (List.range n).zipIdx.map (fun p => (p.1, x.testBit p.2)) ++
          (List.range' n n).zipIdx.map fun p => (p.1, y.testBit p.2) := by
    rw [registerLayout_iadd, placed, List.flatMap_cons, List.flatMap_singleton]
    rfl
  rw [hplaced]
  refine writes_eq (fun p hp => ?_) fun a ha => ?_
  · rcases List.mem_append.mp hp with hp | hp
    · obtain ⟨⟨q, i⟩, hm, rfl⟩ := List.mem_map.mp hp
      rw [List.range_eq_range'] at hm
      obtain ⟨hi, e⟩ := mem_zipIdx_range'.mp hm
      dsimp only at hi e ⊢
      rw [e, Nat.zero_add]
      exact pair_low hi
    · obtain ⟨⟨q, i⟩, hm, rfl⟩ := List.mem_map.mp hp
      obtain ⟨hi, e⟩ := mem_zipIdx_range'.mp hm
      dsimp only at hi e ⊢
      rw [e]
      exact pair_high hi
  · rw [List.map_append, List.map_map, List.map_map, List.mem_append] at ha
    have hfst : ∀ l : List ℕ, l.zipIdx.map Prod.fst = l := List.zipIdx_map_fst 0
    symm
    refine pair_others ?_
    by_contra hlt
    refine ha ?_
    have := mem_registers.mpr (show a < 2 * n by omega)
    rw [← hfst (List.range n), ← hfst (List.range' n n)] at this
    exact this

theorem nodup_registers (n : ℕ) : (List.range n ++ List.range' n n).Nodup := by
  have e : List.range n ++ List.range' n n = List.range' 0 (n + n) := by
    rw [List.range_eq_range', ← List.range'_append_1, Nat.zero_add]
  rw [e]
  exact List.nodup_range'

theorem parseKmx_iadd {comments : List (List Char)} (hc : ∀ l ∈ comments, PlainComment l)
    (hn : 3 ≤ n) (hmax : n ≤ 2 ^ 15) (k : ℕ) :
    parseKmx (iaddText comments n k) = .ok (circuitOf (iaddItems n k)) :=
  parseKmx_itemText hc (fitsBoth_iadd hn hmax)

theorem declaresPair_iadd (n k : ℕ) : Python.DeclaresPair (circuitOf (iaddItems n k)) n := by
  refine ⟨List.range n, List.range' n n, ?_, ?_, List.length_range, List.length_range'⟩
  · rw [registerLayout_iadd]
    rfl
  · rw [registerLayout_iadd]
    rfl

/-- The state of the two registers. -/
theorem wires_encodePair (hn : 3 ≤ n) (hmax : n ≤ 2 ^ 15) {s : List UInt8}
    (h : encodePair (circuitOf (iaddItems n k)) x y = .ok s) :
    s.length = Python.minStateBytes (circuitOf (iaddItems n k)) ∧ wires s = pair n x y := by
  obtain ⟨s', hs', hlen, hw⟩ := Python.exists_encodePair
    (parseKmx_iadd (List.forall_mem_nil PlainComment) hn hmax k) (declaresPair_iadd n k) x y
  obtain rfl := Except.ok.inj (h.symm.trans hs')
  exact ⟨hlen, hw.trans (writes_placed_iadd n k x y)⟩

/-- **For Python the circuit is an adder.** -/
theorem isAdder_iadd (hn : 3 ≤ n) (hmax : n ≤ 2 ^ 15) : IsAdder (circuitOf (iaddItems n 1)) n where
  registers := by
    refine ⟨List.range n, List.range' n n, ?_, ?_, List.length_range, List.length_range',
      nodup_registers n⟩
    · rw [registerLayout_iadd]
      rfl
    · rw [registerLayout_iadd]
      rfl
  adds := by
    intro x y s t hx hy hs ht
    obtain ⟨hslen, hsw⟩ := wires_encodePair hn hmax hs
    obtain ⟨htlen, htw⟩ := wires_encodePair hn hmax ht
    have hgates : (circuitOf (iaddItems n 1)).gates = iaddGates n 1 := by
      rw [circuitOf_eq]
      exact gates_iaddItems hn hmax
    have hbytes := Python.numQubits_le (circuitOf (iaddItems n 1))
    rw [numQubits_iaddItems hn hmax, ← hslen] at hbytes
    refine Python.run_ok_iff.mpr ⟨fun g hg => ?_, htlen.trans hslen.symm, ?_⟩
    · rw [hgates] at hg
      exact (live_iadd hn (mem_iaddGates hg)).plain.inRange.mono hbytes
    · rw [hgates, hsw, htw, simulate_iaddGates hn, pair_mod, Nat.one_mul]

end Python

/-! ## 4. The circuit in Rust -/

section Rust

variable {n k x y a b : ℕ} {s : State}

theorem adderRegisters_iadd (n k : ℕ) :
    AdderRegisters (rustCircuit (iaddItems n k)) n (List.range n) (List.range' n n) where
  declared := by
    refine ⟨0, 1, ?_⟩
    rw [rustCircuit]
    dsimp only
    rw [declare_iaddItems, toList_iaddRegisters]
  width0 := List.length_range
  width1 := List.length_range'
  distinct := nodup_registers n

/-- **A state of the adder is a pair of values**, all other qubits being off. -/
theorem adderState_iff {m : ℕ} (ha : a < 2 ^ n) (hb : b < 2 ^ n) :
    AdderState (List.range n) (List.range' n n) m a b s ↔
      s.qubits.length = m ∧ s.on = pair n a b ∧ s.phase = false := by
  have h0 : a < 2 ^ (List.range n).length := by rwa [List.length_range]
  have h1 : b < 2 ^ (List.range' n n).length := by rwa [List.length_range']
  constructor
  · intro h
    refine ⟨h.length, funext fun i => ?_, h.phase⟩
    have hr0 := (regValue_eq_iff h0).mp h.r0
    have hr1 := (regValue_eq_iff h1).mp h.r1
    by_cases hi : i < 2 * n
    · by_cases hlow : i < n
      · have := hr0 i (by rwa [List.length_range])
        rw [List.getElem_range] at this
        rw [this, pair_low hlow]
      · obtain ⟨j, rfl⟩ : ∃ j, i = n + j := ⟨i - n, by omega⟩
        have := hr1 j (by rw [List.length_range']; omega)
        rw [List.getElem_range', Nat.one_mul] at this
        rw [this, pair_high (by omega)]
    · rw [pair_others (by omega)]
      refine Bool.eq_false_of_not_eq_true fun hon => hi ?_
      exact mem_registers.mp (h.others i hon)
  · rintro ⟨hlen, hon, hp⟩
    refine ⟨hlen, (regValue_eq_iff h0).mpr fun j hj => ?_, (regValue_eq_iff h1).mpr fun j hj => ?_,
      fun q hq => ?_, hp⟩
    · rw [List.length_range] at hj
      rw [List.getElem_range, hon, pair_low hj]
    · rw [List.length_range'] at hj
      rw [List.getElem_range', Nat.one_mul, hon, pair_high hj]
    · refine mem_registers.mpr ?_
      by_contra hlt
      rw [hon, pair_others (by omega)] at hq
      cases hq

theorem holds_on (s : State) : Holds s.qubits s.on := by
  intro i hi
  rw [State.on, List.getD_eq_getElem _ _ hi]
  exact List.getElem?_eq_getElem hi

theorem on_of_holds {s : State} {u : ℕ → Bool} (h : Holds s.qubits u)
    (hoff : ∀ i, s.qubits.length ≤ i → u i = false) : s.on = u := by
  funext i
  by_cases hi : i < s.qubits.length
  · rw [State.on, List.getD_eq_getElem?_getD, h i hi, Option.getD_some]
  · rw [State.on, List.getD_eq_default _ _ (by omega), hoff i (by omega)]

/-- **A run of the text adds `k` times**, from any state of the adder and over any source. -/
theorem run_iadd (hn : 3 ≤ n) (hmax : n ≤ 2 ^ 15) {M : Type} [MeasureSource M] (m : M)
    (hx : x < 2 ^ n) (hy : y < 2 ^ n)
    (hs : AdderState (List.range n) (List.range' n n) (2 * n) x y s) (hstack : s.condStack = []) :
    ∃ s', run (rustCircuit (iaddItems n k)) s m = some (s', m) ∧
      AdderState (List.range n) (List.range' n n) (2 * n) ((x + k * y) % 2 ^ n) y s' := by
  obtain ⟨hlen, hon, hp⟩ := (adderState_iff hx hy).mp hs
  have hitems : ∀ item ∈ iaddItems n k, ∀ q, .qubit q ∈ item.targets → q < s.qubits.length :=
    fun item hi q hq => hlen ▸ lt_of_mem_iaddItems hn hmax hi hq
  obtain ⟨qs, hrun, hlen', hqs⟩ := run_items (m := m) (holds_on s) hstack hitems
  refine ⟨{ s with qubits := qs }, hrun,
    (adderState_iff (Nat.mod_lt _ (Nat.two_pow_pos n)) hy).mpr ⟨hlen'.trans hlen, ?_, hp⟩⟩
  rw [gates_iaddItems hn hmax, hon, simulate_iaddGates hn] at hqs
  rw [pair_mod]
  exact on_of_holds hqs fun i hi => pair_others (by rw [← hlen, ← hlen']; exact hi)

/-- **For Rust the circuit adds `k` times**, whatever is measured. -/
theorem addsAlways_iadd (hn : 3 ≤ n) (hmax : n ≤ 2 ^ 15) (k : ℕ) :
    AddsAlways (rustCircuit (iaddItems n k)) k n (List.range n) (List.range' n n) := by
  have hq : (rustCircuit (iaddItems n k)).numQubits = 2 * n := numQubits_iaddItems hn hmax
  intro x y hx hy
  refine ⟨⟨⟨(List.range (2 * n)).map (pair n x y), [], false, []⟩, ?_, rfl, rfl⟩,
    fun s hs m => ?_⟩
  · rw [hq, adderState_iff hx hy]
    refine ⟨by rw [List.length_map, List.length_range], on_of_holds (fun i hi => ?_) fun i hi => ?_,
      rfl⟩
    · rw [List.length_map, List.length_range] at hi
      rw [List.getElem?_map, List.getElem?_range hi, Option.map_some]
    · rw [List.length_map, List.length_range] at hi
      exact pair_others hi
  · have ha := hs.adder
    rw [hq] at ha ⊢
    obtain ⟨s', hrun, h⟩ := run_iadd (k := k) hn hmax m hx hy ha hs.condStack
    exact ⟨s', m, hrun, h⟩

theorem length_registerItems (r : ℕ) (members : List ℕ) :
    (registerItems r members).length = members.length + 1 := by
  rw [registerItems, List.length_append, List.length_map, List.length_singleton]

theorem length_iaddItems (hn : 3 ≤ n) (k : ℕ) :
    (iaddItems n k).length = k * (10 * n - 13) + (2 * n + 2) := by
  rw [iaddItems, List.length_append, List.length_append, length_registerItems,
    length_registerItems, List.length_range, List.length_range', List.length_map, iaddGates,
    List.length_flatten, List.map_replicate, List.sum_replicate, length_iadd hn, smul_eq_mul]
  omega

/-- An item is non-Clifford exactly when its gate is a Toffoli gate. -/
theorem isNonClifford_toInst (item : Item) :
    isNonClifford (toInst item) = (item.gate.map fun g => decide (g.opcode = OP_TOFFOLI)).getD false := by
  cases item <;> rfl

theorem nonClifford_iadd (hn : 3 ≤ n) (hmax : n ≤ 2 ^ 15) (k : ℕ) :
    (((iaddItems n k).map toInst).filter isNonClifford).length = k * (2 * n - 3) := by
  have hgates : (iaddItems n k).countP (isNonClifford ∘ toInst) =
      toffolis ((iaddItems n k).filterMap Item.gate) := by
    rw [toffolis, List.countP_filterMap]
    exact List.countP_congr fun item _ => by rw [Function.comp_apply, isNonClifford_toInst]
  have hflat : toffolis (iaddGates n k) = k * toffolis (iadd n) := by
    rw [toffolis, iaddGates, List.countP_flatten, List.map_replicate, List.sum_replicate,
      smul_eq_mul, toffolis]
  rw [← List.countP_eq_length_filter, List.countP_map, hgates, gates_iaddItems hn hmax, hflat,
    toffolis_iadd hn]

/-- **`run_statement` on a circuit that adds**: the verdict is that of the demands. -/
theorem runStatement_iff_meets {c : Circuit} {m0 m1 : List ℕ} {k width numSamples : ℕ}
    (hshape : AdderRegisters c width m0 m1) (hadds : AddsAlways c k width m0 m1)
    (hwidth : 1 ≤ width ∧ width ≤ 128) (hsamples : 1 ≤ numSamples)
    (hcap : numSamples * caseBytes ≤ isizeMax) (circuitHash : List UInt8)
    (demanded : DemandedBounds) :
    runStatement c circuitHash ⟨k, width, numSamples, demanded⟩ =
        some (.ok (publicOutputs (countResources c numSamples))) ↔
      Meets (countResources c numSamples) demanded := by
  rw [runStatement_eq_ok]
  refine ⟨fun h => h.2.1, fun hmeets => ⟨rfl, hmeets, ?_⟩⟩
  obtain ⟨cases, hcases⟩ :=
    (exists_deriveCases_iff circuitHash hwidth.1 hwidth.2 hsamples).mpr hcap
  refine ⟨cases, hcases, ?_⟩
  dsimp only
  rw [statementMask hwidth.2]
  refine checkCases_none.mpr fun j x y hj => ?_
  obtain ⟨hx, hy⟩ := deriveCases_lt hcases (x, y) (List.mem_of_getElem? hj)
  refine checkCase_complete hshape hwidth.2 hadds hx hy ?_ _
  rw [Nat.and_two_pow_sub_one_eq_mod, Nat.mod_mod, wrapping_sum_mod hwidth.2]

/-- **`run_statement` on the workload**: for every width a register can have, every number of
    repetitions and every hash, it returns these outputs exactly when they meet the demands. -/
theorem workload_statement (comments : List (List Char)) (hc : ∀ l ∈ comments, PlainComment l)
    (n k numSamples : ℕ) (hn : 3 ≤ n ∧ n ≤ 128) (hsamples : 1 ≤ numSamples)
    (hcap : numSamples * caseBytes ≤ isizeMax) (circuitHash : List UInt8)
    (demanded : DemandedBounds) :
    ∃ c, parse (iaddText comments n k) = pure c ∧
      (runStatement c circuitHash ⟨k, n, numSamples, demanded⟩ =
        some (.ok [numSamples, 2 * n, k * (2 * n - 3), k * (10 * n - 13) + (2 * n + 2), 42]) ↔
      Meets ⟨numSamples, 2 * n, k * (2 * n - 3), k * (10 * n - 13) + (2 * n + 2)⟩ demanded) := by
  have hmax : n ≤ 2 ^ 15 := hn.2.trans (by decide)
  refine ⟨rustCircuit (iaddItems n k), (both_read hc (fitsBoth_iadd hn.1 hmax)).2, ?_⟩
  have hcounts : countResources (rustCircuit (iaddItems n k)) numSamples =
      ⟨numSamples, 2 * n, k * (2 * n - 3), k * (10 * n - 13) + (2 * n + 2)⟩ := by
    rw [countResources, rustCircuit]
    dsimp only
    rw [numQubits_iaddItems hn.1 hmax, nonClifford_iadd hn.1 hmax, List.length_map,
      length_iaddItems hn.1]
  have h := runStatement_iff_meets (adderRegisters_iadd n k) (addsAlways_iadd hn.1 hmax k)
    ⟨by omega, hn.2⟩ hsamples hcap circuitHash demanded
  rwa [hcounts] at h

end Rust

/-! ## 5. The files -/

/-- The lines of iadd8.kmx. -/
def iadd8Lines : List String :=
  ["# Performs r0 += r1 (mod 256)",
    "# This is a variant of the adder from https://arxiv.org/abs/quant-ph/0410184",
    "APPEND_TO_REGISTER q0 r0", "APPEND_TO_REGISTER q1 r0", "APPEND_TO_REGISTER q2 r0",
    "APPEND_TO_REGISTER q3 r0", "APPEND_TO_REGISTER q4 r0", "APPEND_TO_REGISTER q5 r0",
    "APPEND_TO_REGISTER q6 r0", "APPEND_TO_REGISTER q7 r0", "REGISTER r0",
    "APPEND_TO_REGISTER q8 r1", "APPEND_TO_REGISTER q9 r1", "APPEND_TO_REGISTER q10 r1",
    "APPEND_TO_REGISTER q11 r1", "APPEND_TO_REGISTER q12 r1", "APPEND_TO_REGISTER q13 r1",
    "APPEND_TO_REGISTER q14 r1", "APPEND_TO_REGISTER q15 r1", "REGISTER r1", "CX q15 q7",
    "CX q15 q1", "CX q15 q2", "CX q15 q3", "CX q15 q4", "CX q15 q5", "CX q15 q6", "CX q15 q7",
    "CX q15 q9", "CX q15 q10", "CX q15 q11", "CX q15 q12", "CX q15 q13", "CX q15 q14",
    "CCX q0 q8 q15", "CX q15 q9", "CX q15 q1", "CCX q1 q9 q15", "CX q15 q10", "CX q15 q2",
    "CCX q2 q10 q15", "CX q15 q11", "CX q15 q3", "CCX q3 q11 q15", "CX q15 q12", "CX q15 q4",
    "CCX q4 q12 q15", "CX q15 q13", "CX q15 q5", "CCX q5 q13 q15", "CX q15 q14", "CX q15 q6",
    "CX q15 q7", "CCX q6 q14 q7", "CX q15 q14", "CX q14 q6", "CCX q5 q13 q15", "CX q15 q13",
    "CX q13 q5", "CCX q4 q12 q15", "CX q15 q12", "CX q12 q4", "CCX q3 q11 q15", "CX q15 q11",
    "CX q11 q3", "CCX q2 q10 q15", "CX q15 q10", "CX q10 q2", "CCX q1 q9 q15", "CX q15 q9",
    "CX q9 q1", "CCX q0 q8 q15", "CX q8 q0", "CX q15 q9", "CX q15 q10", "CX q15 q11", "CX q15 q12",
    "CX q15 q13", "CX q15 q14", "CX q15 q1", "CX q15 q2", "CX q15 q3", "CX q15 q4", "CX q15 q5",
    "CX q15 q6", "CX q15 q7", "CX q15 q7"]

/-- The two comments of iadd8.kmx and iadd64.kmx, the second of which names the modulus; iadd256.kmx
    has none. -/
def iaddComments (modulus : String) : List (List Char) :=
  [("# Performs r0 += r1 (mod " ++ modulus ++ ")").toList,
    "# This is a variant of the adder from https://arxiv.org/abs/quant-ph/0410184".toList]

/-- iadd8.kmx is of the family. -/
example :
    unlines '\n' (iadd8Lines.map String.toList) = iaddText (iaddComments "256") 8 1 := by
  decide +kernel

theorem plainComment_iadd64 : ∀ l ∈ iaddComments "18446744073709551616", PlainComment l := by
  have hall : ∀ l ∈ iaddComments "18446744073709551616", (l.head? = some '#' ∧ '\n' ∉ l) ∧
      (l.all fun c => Python.isLineBreak c = false) = true := by decide
  intro l hl
  obtain ⟨hcomment, hplain⟩ := hall l hl
  exact ⟨hcomment, fun c hc => of_decide_eq_true (List.all_eq_true.mp hplain c hc)⟩

/-- The statement of the test `iadd64_statement_holds`, with the bounds and the hash it has there. -/
theorem workload_statement_iadd64 :
    ∃ c, parse (iaddText (iaddComments "18446744073709551616") 64 1) = pure c ∧
      (runStatement c (List.replicate 32 0xab) ⟨1, 64, 128, ⟨128, 128, 125, 757⟩⟩ =
        some (.ok [128, 2 * 64, 1 * (2 * 64 - 3), 1 * (10 * 64 - 13) + (2 * 64 + 2), 42]) ↔
      Meets ⟨128, 2 * 64, 1 * (2 * 64 - 3), 1 * (10 * 64 - 13) + (2 * 64 + 2)⟩
        ⟨128, 128, 125, 757⟩) :=
  workload_statement _ plainComment_iadd64 64 1 128 (by decide) (by decide) (by decide) _ _

end GroverTax.Parity
