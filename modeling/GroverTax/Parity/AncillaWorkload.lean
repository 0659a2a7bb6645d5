/-
  File:      GroverTax/Parity/AncillaWorkload.lean
  Subject:   The .kmx text of the adder with measurements, iadd8_with_ancillae.kmx, for any number of
             bits and of repetitions.

  * `ancillaText` -- the text;
  * `run_ancilla` -- it adds `k` times over every measurement source;
  * **`ancilla_statement`** -- **`check_case` passes on every trajectory and every pair of operands**,
    and `run_statement` accepts the text with half the Toffoli gates of iadd8.kmx.
-/
import GroverTax.Kickmix.AncillaAdder
import GroverTax.Kickmix.FuzzRun
import GroverTax.Parity.Workload

namespace GroverTax.Parity

open GroverTax.Lib GroverTax.Gtv1 GroverTax.Kickmix
open GroverTax.Python (Item)

/-! ## 1. The text -/

/-- Two registers of `n` qubits, then the adder `k` times over. -/
def ancillaInsts (n k : ℕ) : List Instruction :=
  (registerItems 0 (List.range n) ++ registerItems 1 (List.range' n n)).map toInst ++
    (List.replicate k (ancillaAdder n)).flatten

def ancillaText (comments : List (List Char)) (n k : ℕ) : List Char :=
  unlines '\n' comments ++ render (ancillaInsts n k)

/-- The circuit of the text. -/
def ancillaCircuit (n k : ℕ) : Circuit where
  instructions := ancillaInsts n k
  registers := iaddRegisters n
  numQubits := 3 * n - 2
  numBits := 1

/-- An instruction that acts on `m` qubits and one bit. -/
structure Acts (m : ℕ) (inst : Instruction) : Prop where
  op : ∃ op : Op, inst.name = op.name ∧ isGate op = true
  targets : ∀ t ∈ inst.targets, (∃ q < m, t = .qubit q) ∨ t = .bit 0
  condition : ∀ b, inst.condition = some b → b = 0

section Acts

variable {n m k : ℕ} {inst : Instruction}

theorem isValidName_op (op : Op) : isValidName op.name.toList = true := by
  cases op <;> decide

theorem Acts.ne_metadata (h : Acts m inst) :
    inst.name ≠ "REGISTER" ∧ inst.name ≠ "APPEND_TO_REGISTER" := by
  obtain ⟨op, hname, hop⟩ := h.op
  rw [hname]
  cases op <;> first | exact absurd hop (by decide) | decide

theorem Acts.wellFormed (h : Acts m inst) (hm : m ≤ 2 ^ 63) : WellFormed inst where
  name := by
    obtain ⟨op, hname, -⟩ := h.op
    rw [hname]
    exact isValidName_op op
  targets := by
    intro t ht
    unfold usizeSize
    rcases h.targets t ht with ⟨q, hq, rfl⟩ | rfl
    · exact (hq.trans_le hm).trans (by decide)
    · exact show 0 < 2 ^ 64 by decide
  condition := by
    intro b hb
    obtain rfl := h.condition b hb
    exact show 0 < 2 ^ 64 by decide
  metadata := ⟨fun e => absurd e h.ne_metadata.1, fun e => absurd e h.ne_metadata.2⟩

theorem Acts.declare_eq (h : Acts m inst) (rs : Std.ExtTreeMap ℕ (List ℕ)) :
    declare rs inst = rs := by
  rw [declare, if_neg h.ne_metadata.1, if_neg h.ne_metadata.2]

theorem acts_gate {op : Op} {qs : List ℕ} (hop : isGate op = true) (hq : ∀ q ∈ qs, q < m) :
    Acts m (gate op qs) where
  op := ⟨op, rfl, hop⟩
  targets := by
    intro t ht
    obtain ⟨q, hmem, rfl⟩ := List.mem_map.mp ht
    exact Or.inl ⟨q, hq q hmem, rfl⟩
  condition := fun _ hb => nomatch hb

theorem acts_uncompute {a b t : ℕ} (ha : a < m) (hb : b < m) (ht : t < m)
    (h : inst ∈ uncompute a b t 0) : Acts m inst := by
  simp only [uncompute, List.mem_cons, List.not_mem_nil, or_false] at h
  rcases h with rfl | rfl
  · refine ⟨⟨.hmr, rfl, rfl⟩, ?_, fun _ hb => absurd hb.symm (Option.some_ne_none _)⟩
    simp [ht]
  · refine ⟨⟨.cz, rfl, rfl⟩, ?_, fun _ hb => (Option.some.inj hb).symm⟩
    simp [ha, hb]

theorem acts_backward (hn : 3 ≤ n) : ∀ {k : ℕ}, k + 2 < n → inst ∈ ancillaBackward n k →
    Acts (3 * n - 2) inst
  | 0, _, h => absurd h List.not_mem_nil
  | k + 1, hk, h => by
      simp only [ancillaBackward, List.mem_append, List.mem_cons] at h
      rcases h with (rfl | h) | rfl | rfl | h
      · exact acts_gate rfl (by simp; omega)
      · exact acts_uncompute (by omega) (by omega) (by omega) h
      · exact acts_gate rfl (by simp; omega)
      · exact acts_gate rfl (by simp; omega)
      · exact acts_backward hn (by omega) h

theorem acts_forward (hn : 3 ≤ n) (h : inst ∈ ancillaForward n (n - 3)) :
    Acts (3 * n - 2) inst := by
  obtain ⟨i, hi, h⟩ := List.mem_flatMap.mp h
  have := List.mem_range'_1.mp hi
  simp only [List.mem_cons, List.not_mem_nil, or_false] at h
  rcases h with rfl | rfl | rfl | rfl | rfl
  all_goals exact acts_gate rfl (by simp; omega)

theorem acts_turn (hn : 3 ≤ n) (h : inst ∈ ancillaTurn n) : Acts (3 * n - 2) inst := by
  simp only [ancillaTurn, List.mem_cons, List.not_mem_nil, or_false] at h
  rcases h with rfl | rfl | rfl | rfl
  all_goals exact acts_gate rfl (by simp; omega)

theorem acts_ancillaAdder (hn : 3 ≤ n) (h : inst ∈ ancillaAdder n) : Acts (3 * n - 2) inst := by
  simp only [ancillaAdder, List.mem_append, List.mem_cons, List.not_mem_nil, or_false] at h
  rcases h with ((((rfl | rfl | rfl | rfl | rfl | h) | h) | h) | h) | rfl
  · exact acts_gate rfl (by simp; omega)
  · exact acts_gate rfl (by simp; omega)
  · exact acts_gate rfl (by simp; omega)
  · exact acts_gate rfl (by simp; omega)
  · exact acts_gate rfl (by simp; omega)
  · exact acts_forward hn h
  · exact acts_turn hn h
  · exact acts_backward hn (by omega) h
  · exact acts_uncompute (by omega) (by omega) (by omega) h
  · exact acts_gate rfl (by simp; omega)

theorem acts_flatten (hn : 3 ≤ n) (h : inst ∈ (List.replicate k (ancillaAdder n)).flatten) :
    Acts (3 * n - 2) inst := by
  obtain ⟨l, hl, hi⟩ := List.mem_flatten.mp h
  rw [List.eq_of_mem_replicate hl] at hi
  exact acts_ancillaAdder hn hi

end Acts

/-! ## 2. The circuit -/

section Circuit

variable {n k : ℕ} {inst : Instruction}

theorem mem_ancillaInsts (h : inst ∈ ancillaInsts n k) :
    (∃ item, inst = toInst item ∧
      (item ∈ registerItems 0 (List.range n) ∨ item ∈ registerItems 1 (List.range' n n))) ∨
    inst ∈ (List.replicate k (ancillaAdder n)).flatten := by
  rcases List.mem_append.mp h with h | h
  · obtain ⟨item, hi, rfl⟩ := List.mem_map.mp h
    exact Or.inl ⟨item, rfl, List.mem_append.mp hi⟩
  · exact Or.inr h

/-- Every operand is a qubit of the circuit, the bit, or a register. -/
theorem operand_ancilla (hn : 3 ≤ n) (h : inst ∈ ancillaInsts n k) {t : Target}
    (ht : t ∈ inst.targets) : (∃ q < 3 * n - 2, t = .qubit q) ∨ t = .bit 0 ∨
      t = .register 0 ∨ t = .register 1 := by
  rcases mem_ancillaInsts h with ⟨item, rfl, hi⟩ | h
  · have hregister : ∀ {r : ℕ} {members : List ℕ}, item ∈ registerItems r members →
        (∃ q ∈ members, t = .qubit q) ∨ t = .register r := by
      intro r members hi
      rcases List.mem_append.mp hi with hi | hi
      · obtain ⟨q, hq, rfl⟩ := List.mem_map.mp hi
        rcases List.mem_cons.mp ht with rfl | ht
        · exact Or.inl ⟨q, hq, rfl⟩
        · exact Or.inr (List.mem_singleton.mp ht)
      · obtain rfl := List.mem_singleton.mp hi
        exact Or.inr (List.mem_singleton.mp ht)
    have hlt : ∀ q, q < 2 * n → q < 3 * n - 2 := fun q hq => by omega
    rcases hi with hi | hi
    · rcases hregister hi with ⟨q, hq, rfl⟩ | rfl
      · exact Or.inl ⟨q, hlt q (mem_registers.mp (Or.inl hq)), rfl⟩
      · exact Or.inr (Or.inr (Or.inl rfl))
    · rcases hregister hi with ⟨q, hq, rfl⟩ | rfl
      · exact Or.inl ⟨q, hlt q (mem_registers.mp (Or.inr hq)), rfl⟩
      · exact Or.inr (Or.inr (Or.inr rfl))
  · rcases (acts_flatten hn h).targets t ht with h | rfl
    · exact Or.inl h
    · exact Or.inr (Or.inl rfl)

theorem condition_ancilla (hn : 3 ≤ n) (h : inst ∈ ancillaInsts n k) {b : ℕ}
    (hb : inst.condition = some b) : b = 0 := by
  rcases mem_ancillaInsts h with ⟨item, rfl, -⟩ | h
  · cases hb
  · exact (acts_flatten hn h).condition b hb

/-- The highest ancilla. -/
theorem mem_reset_ancilla (hn : 3 ≤ n) : gate .r [3 * n - 3] ∈ ancillaAdder n := by
  simp only [ancillaAdder, List.mem_append, List.mem_cons]
  refine Or.inl (Or.inl (Or.inl (Or.inl ?_)))
  by_cases h3 : n = 3
  · exact Or.inr (Or.inl (by rw [show 3 * n - 3 = 2 * n by omega]))
  · refine Or.inr (Or.inr (Or.inr (Or.inr (Or.inr ?_))))
    refine List.mem_flatMap.mpr ⟨n - 3, List.mem_range'_1.mpr (by omega), ?_⟩
    rw [show 3 * n - 3 = 2 * n + (n - 3) by omega]
    exact List.mem_cons_self

theorem mem_flatten_ancilla (hk : 1 ≤ k) (h : inst ∈ ancillaAdder n) : inst ∈ ancillaInsts n k :=
  List.mem_append_right _ (List.mem_flatten.mpr
    ⟨_, List.mem_replicate.mpr ⟨by omega, rfl⟩, h⟩)

theorem maxQubitOf_ancilla (hn : 3 ≤ n) (hmax : n ≤ 128) (hk : 1 ≤ k) :
    maxQubitOf (ancillaInsts n k) = 3 * n - 3 := by
  refine le_antisymm (maxQubitOf_le_iff.mpr ⟨by omega, fun q hq => ?_⟩) ?_
  · obtain ⟨inst, hi, ht⟩ := hq
    rcases operand_ancilla hn hi ht with ⟨q', hlt, e⟩ | e | e | e
    · obtain rfl := Target.qubit.inj e
      rw [asIsize_of_lt (by omega)]
      omega
    all_goals cases e
  · have hle := (maxQubitOf_le_iff.mp (le_refl (maxQubitOf (ancillaInsts n k)))).2 (3 * n - 3)
      ⟨_, mem_flatten_ancilla hk (mem_reset_ancilla hn), List.mem_cons_self⟩
    rw [asIsize_of_lt (by omega)] at hle
    omega

theorem maxBitOf_ancilla (hn : 3 ≤ n) (hk : 1 ≤ k) : maxBitOf (ancillaInsts n k) = 0 := by
  refine le_antisymm (maxBitOf_le_iff.mpr ⟨by omega, fun b hb => ?_⟩) ?_
  · obtain ⟨inst, hi, hb⟩ := hb
    obtain rfl : b = 0 := by
      rcases hb with ht | hc
      · rcases operand_ancilla hn hi ht with ⟨q', -, e⟩ | e | e | e
        · cases e
        · exact Target.bit.inj e
        · cases e
        · cases e
      · exact condition_ancilla hn hi hc
    exact (asIsize_of_lt (by decide)).le
  · have hmem : (⟨Op.hmr.name, [.qubit (2 * n), .bit 0], none⟩ : Instruction) ∈ ancillaAdder n := by
      simp only [ancillaAdder, List.mem_append]
      exact Or.inl (Or.inr List.mem_cons_self)
    have hle := (maxBitOf_le_iff.mp (le_refl (maxBitOf (ancillaInsts n k)))).2 0
      ⟨_, mem_flatten_ancilla hk hmem, Or.inl (List.mem_cons_of_mem _ List.mem_cons_self)⟩
    rwa [asIsize_of_lt (by decide)] at hle

theorem declare_ancilla (hn : 3 ≤ n) : (ancillaInsts n k).foldl declare ∅ = iaddRegisters n := by
  have h0 : (∅ : Std.ExtTreeMap ℕ (List ℕ))[0]? = none := rfl
  have h1 : ((∅ : Std.ExtTreeMap ℕ (List ℕ)).insert 0 (List.range n))[1]? = none := rfl
  have hacts : ∀ insts : List Instruction, (∀ inst ∈ insts, Acts (3 * n - 2) inst) →
      ∀ rs, insts.foldl declare rs = rs := by
    intro insts h rs
    induction insts with
    | nil => rfl
    | cons inst insts ih =>
      rw [List.forall_mem_cons] at h
      rw [List.foldl_cons, h.1.declare_eq, ih h.2]
  rw [ancillaInsts, List.foldl_append, hacts _ fun inst hi => acts_flatten hn hi,
    foldl_declare_toInst, List.foldl_append, declare_registerItems _ h0, declare_registerItems _ h1,
    iaddRegisters]

/-- **The text is read as the circuit.** -/
theorem parsed_ancilla (hn : 3 ≤ n) (hmax : n ≤ 128) (hk : 1 ≤ k) : Parsed (ancillaCircuit n k) where
  wellFormed := by
    intro inst hi
    rcases mem_ancillaInsts hi with ⟨item, rfl, h⟩ | h
    · have hfits : FitsBoth item := by
        have hwire : ∀ q, q < 2 * n → q ≤ Python.WIRE_MAX := fun q hq => by
          unfold Python.WIRE_MAX
          omega
        rcases h with h | h
        · exact fitsBoth_registerItems (by decide)
            (fun q hq => hwire q (mem_registers.mp (Or.inl hq))) item h
        · exact fitsBoth_registerItems (by decide)
            (fun q hq => hwire q (mem_registers.mp (Or.inr hq))) item h
      exact hfits.wellFormed
    · exact (acts_flatten hn h).wellFormed (by omega)
  maxQubit := by
    rw [ancillaCircuit]
    dsimp only
    rw [maxQubitOf_ancilla hn hmax hk]
    omega
  maxBit := by
    rw [ancillaCircuit]
    dsimp only
    rw [maxBitOf_ancilla hn hk]
    decide
  built := by
    refine ⟨rfl, (declare_ancilla hn).symm, ?_, ?_⟩
    · rw [ancillaCircuit]
      dsimp only
      rw [maxQubitOf_ancilla hn hmax hk]
      omega
    · rw [ancillaCircuit]
      dsimp only
      rw [maxBitOf_ancilla hn hk]
      rfl

end Circuit

/-! ## 3. The sum -/

section Sum

variable {n k x y : ℕ} {s : State}

theorem trio_eq_pair (n x y : ℕ) : trio n (BitVec.ofNat n x).getLsbD (BitVec.ofNat n y).getLsbD
    (fun _ => false) = pair n x y := by
  funext i
  rw [trio, pair, join]
  split_ifs with h1 h2
  · rfl
  · rfl
  · rw [BitVec.getLsbD_of_ge _ _ (by omega)]

/-- **`k` times the adder adds `k` times.** -/
theorem moves_flatten (hn : 3 ≤ n) (y : ℕ) : ∀ (k x : ℕ),
    Moves (3 * n - 2) 1 (List.replicate k (ancillaAdder n)).flatten (pair n x y)
      (pair n (x + k * y) y)
  | 0, x => by
      rw [Nat.zero_mul, Nat.add_zero]
      exact .nil
  | k + 1, x => by
      have hstep := @moves_ancillaAdder n (3 * n - 2) 1 hn (by omega) Nat.one_pos
        (BitVec.ofNat n x) (BitVec.ofNat n y)
      rw [← BitVec.ofNat_add, trio_eq_pair, trio_eq_pair] at hstep
      rw [List.replicate_succ, List.flatten_cons, show x + (k + 1) * y = x + y + k * y by ring]
      exact hstep.append (moves_flatten hn y k (x + y))

/-- The registers are declared and nothing happens. -/
theorem run_registerItems {M : Type} [MeasureSource M] (m : M) (r : ℕ) (members : List ℕ) :
    runInstructions ((registerItems r members).map toInst) s m = some (s, m) := by
  have hskip : ∀ item ∈ registerItems r members, step (toInst item) s m = some (s, m) := by
    intro item hi
    rcases List.mem_append.mp hi with hi | hi
    · obtain ⟨q, -, rfl⟩ := List.mem_map.mp hi
      rfl
    · obtain rfl := List.mem_singleton.mp hi
      rfl
  revert hskip
  generalize registerItems r members = items
  intro hskip
  induction items with
  | nil => rfl
  | cons item items ih =>
    rw [List.forall_mem_cons] at hskip
    exact run_cons_some.mpr ⟨_, hskip.1, ih hskip.2⟩

/-- **A run adds `k` times**, over every measurement source. -/
theorem run_ancilla (hn : 3 ≤ n) (hx : x < 2 ^ n) (hy : y < 2 ^ n) {M : Type} [MeasureSource M]
    (m : M) (hs : InitialState (ancillaCircuit n k) (List.range n) (List.range' n n) x y s) :
    ∃ s' m', run (ancillaCircuit n k) s m = some (s', m') ∧
      AdderState (List.range n) (List.range' n n) (3 * n - 2) ((x + k * y) % 2 ^ n) y s' := by
  obtain ⟨hlen, hon, hp⟩ := (adderState_iff hx hy).mp hs.adder
  have hwires : ∀ {u : ℕ → Bool} {qs : List Bool}, qs.length = 3 * n - 2 →
      (∀ i, qs.getD i false = u i) → qs = (List.range (3 * n - 2)).map u := by
    intro u qs hlen h
    refine List.ext_getElem (by rw [hlen, List.length_map, List.length_range]) fun i hi hi' => ?_
    rw [List.getElem_map, List.getElem_range, ← h i, List.getD_eq_getElem _ _ hi]
  have hstate : s = ⟨(List.range (3 * n - 2)).map (pair n x y), s.bits, false, []⟩ := by
    obtain ⟨qs, bs, p, cs⟩ := s
    obtain rfl := hs.condStack
    obtain rfl := hp
    exact congrArg (fun qs => State.mk qs bs false []) (hwires hlen (congrFun hon))
  obtain ⟨bits', m', -, hrun⟩ := moves_flatten hn y k x M m s.bits (by
    rw [hs.bits, List.length_replicate]
    rfl)
  refine ⟨⟨(List.range (3 * n - 2)).map (pair n (x + k * y) y), bits', false, []⟩, m', ?_,
    (adderState_iff (Nat.mod_lt _ (Nat.two_pow_pos n)) hy).mpr ⟨?_, ?_, rfl⟩⟩
  · have hregs := fun r members => @run_registerItems s M _ m r members
    unfold runInstructions at hregs hrun
    show runInstructions (ancillaInsts n k) s m = _
    rw [runInstructions, ancillaInsts, List.map_append, run_append, run_append, hregs,
      Option.bind_some, hregs, Option.bind_some, hstate]
    exact hrun
  · rw [List.length_map, List.length_range]
  · rw [pair_mod]
    refine on_of_holds (fun i hi => ?_) fun i hi => ?_
    · rw [List.length_map, List.length_range] at hi
      rw [List.getElem?_map, List.getElem?_range hi, Option.map_some]
    · rw [List.length_map, List.length_range] at hi
      exact pair_others (by omega)

theorem adderRegisters_ancilla (n k : ℕ) :
    AdderRegisters (ancillaCircuit n k) n (List.range n) (List.range' n n) where
  declared := ⟨0, 1, toList_iaddRegisters n⟩
  width0 := List.length_range
  width1 := List.length_range'
  distinct := nodup_registers n

/-- A state to start from. -/
theorem exists_initial_ancilla (hn : 3 ≤ n) (k : ℕ) (hx : x < 2 ^ n) (hy : y < 2 ^ n) :
    ∃ s, InitialState (ancillaCircuit n k) (List.range n) (List.range' n n) x y s := by
  refine ⟨⟨(List.range (3 * n - 2)).map (pair n x y), [false], false, []⟩,
    (adderState_iff hx hy).mpr ⟨?_, ?_, rfl⟩, rfl, rfl⟩
  · rw [List.length_map, List.length_range]
    rfl
  · refine on_of_holds (fun i hi => ?_) fun i hi => ?_
    · rw [List.length_map, List.length_range] at hi
      rw [List.getElem?_map, List.getElem?_range hi, Option.map_some]
    · rw [List.length_map, List.length_range] at hi
      exact pair_others (by omega)

theorem addsAlways_ancilla (hn : 3 ≤ n) (k : ℕ) :
    AddsAlways (ancillaCircuit n k) k n (List.range n) (List.range' n n) := fun _ _ hx hy =>
  ⟨exists_initial_ancilla hn k hx hy, fun _ hs m => run_ancilla hn hx hy m hs⟩

/-- **The adder passes on every trajectory.** -/
theorem passesAlways_ancilla (hn : 3 ≤ n) (hmax : n ≤ 128) (k : ℕ) (hx : x < 2 ^ n)
    (hy : y < 2 ^ n) : PassesAlways (ancillaCircuit n k) ⟨[x, y], [(x + k * y) % 2 ^ n, y]⟩ := by
  intro bits
  have hreg : (ancillaCircuit n k).registers.toList =
      [(0, List.range n), (1, List.range' n n)] := toList_iaddRegisters n
  have hlt : ∀ q, q < 2 * n → q < (ancillaCircuit n k).numQubits := fun q hq => by
    show q < 3 * n - 2
    omega
  have hfit : ∀ p ∈ (ancillaCircuit n k).registers.toList,
      Fits (ancillaCircuit n k).numQubits p.2 := by
    rw [hreg, List.forall_mem_cons, List.forall_mem_singleton]
    refine ⟨⟨?_, fun q hq => hlt q (mem_registers.mp (Or.inl hq))⟩, ?_,
      fun q hq => hlt q (mem_registers.mp (Or.inr hq))⟩
    · rwa [List.length_range]
    · rwa [List.length_range']
  have hnd : ((ancillaCircuit n k).registers.toList.flatMap Prod.snd).Nodup := by
    rw [hreg]
    simpa using nodup_registers n
  obtain ⟨s, hs⟩ := exists_initial_ancilla hn k hx hy
  obtain ⟨s', m', hrun, hend⟩ := run_ancilla hn hx hy (FixedBits.new bits) hs
  refine (checkCase_eq_none hfit hnd).mpr ⟨s, s', m', hs.starts hreg, hrun, hend.passes hreg ?_ ?_⟩
  · rw [List.length_range, Nat.mod_mod]
    exact hend.r0
  · rw [List.length_range', Nat.mod_eq_of_lt hy]
    exact hend.r1

end Sum

/-! ## 4. Its counts -/

section Counts

variable {n k : ℕ}

theorem length_ancillaBackward (n : ℕ) : ∀ k, (ancillaBackward n k).length = 5 * k
  | 0 => rfl
  | k + 1 => congrArg (· + 5) (length_ancillaBackward n k)

theorem length_ancillaAdder (hn : 3 ≤ n) : (ancillaAdder n).length = 10 * n - 18 := by
  simp [ancillaAdder, ancillaForward, ancillaTurn, uncompute, length_ancillaBackward,
    List.length_flatMap]
  omega

theorem length_ancillaInsts (hn : 3 ≤ n) (k : ℕ) :
    (ancillaInsts n k).length = k * (10 * n - 18) + (2 * n + 2) := by
  rw [ancillaInsts, List.length_append, List.length_map, List.length_append, length_registerItems,
    length_registerItems, List.length_range, List.length_range', List.length_flatten,
    List.map_replicate, List.sum_replicate, length_ancillaAdder hn, smul_eq_mul]
  omega

theorem nonClifford_ancillaBackward (n : ℕ) :
    ∀ k, (ancillaBackward n k).countP isNonClifford = 0
  | 0 => rfl
  | k + 1 => nonClifford_ancillaBackward n k

theorem nonClifford_ancillaForward (n : ℕ) : ∀ l : List ℕ, (l.flatMap fun i =>
    [gate .r [2 * n + i], gate .ccx [i, n + i, 2 * n + i], gate .cx [2 * n + i, 2 * n],
      gate .cx [2 * n, n + (i + 1)], gate .cx [2 * n, i + 1]]).countP isNonClifford = l.length
  | [] => rfl
  | i :: l => by
      rw [List.flatMap_cons, List.countP_append, nonClifford_ancillaForward n l,
        List.length_cons, Nat.add_comm]
      rfl

/-- One Toffoli gate for each carry, and none to take it back. -/
theorem nonClifford_ancillaAdder (hn : 3 ≤ n) :
    (ancillaAdder n).countP isNonClifford = n - 1 := by
  have hfirst : [gate .cx [n + (n - 1), n - 1], gate .r [2 * n], gate .ccx [0, n, 2 * n],
      gate .cx [2 * n, n + 1], gate .cx [2 * n, 1]].countP isNonClifford = 1 := rfl
  have hforward : (ancillaForward n (n - 3)).countP isNonClifford = n - 3 :=
    (nonClifford_ancillaForward n _).trans List.length_range'
  have hturn : (ancillaTurn n).countP isNonClifford = 1 := rfl
  have hlast : (uncompute 0 n (2 * n) 0 ++ [gate .cx [n, 0]]).countP isNonClifford = 0 := rfl
  have e : ancillaAdder n = [gate .cx [n + (n - 1), n - 1], gate .r [2 * n],
      gate .ccx [0, n, 2 * n], gate .cx [2 * n, n + 1], gate .cx [2 * n, 1]] ++
        (ancillaForward n (n - 3) ++ (ancillaTurn n ++ (ancillaBackward n (n - 3) ++
          (uncompute 0 n (2 * n) 0 ++ [gate .cx [n, 0]])))) := by
    simp only [ancillaAdder, List.append_assoc, List.cons_append, List.nil_append]
  rw [e, List.countP_append, List.countP_append, List.countP_append, List.countP_append, hfirst,
    hforward, hturn, nonClifford_ancillaBackward, hlast]
  omega

theorem nonClifford_ancillaInsts (hn : 3 ≤ n) (k : ℕ) :
    ((ancillaInsts n k).filter isNonClifford).length = k * (n - 1) := by
  have hregs : ∀ r members,
      ((registerItems r members).map toInst).countP isNonClifford = 0 := by
    intro r members
    rw [List.countP_eq_zero]
    intro inst hinst
    obtain ⟨item, hi, rfl⟩ := List.mem_map.mp hinst
    rcases List.mem_append.mp hi with hi | hi
    · obtain ⟨q, -, rfl⟩ := List.mem_map.mp hi
      exact Bool.false_ne_true
    · obtain rfl := List.mem_singleton.mp hi
      exact Bool.false_ne_true
  rw [← List.countP_eq_length_filter, ancillaInsts, List.map_append, List.countP_append,
    List.countP_append, hregs, hregs, List.countP_flatten, List.map_replicate, List.sum_replicate,
    nonClifford_ancillaAdder hn, smul_eq_mul, Nat.zero_add]

end Counts

/-- The test case of a pair of operands. -/
def ancillaCase (n k : ℕ) (p : ℕ × ℕ) : FuzzCase :=
  ⟨[p.1, p.2], [(p.1 + k * p.2) % 2 ^ n, p.2]⟩

/-- **The adder with measurements holds**: it adds `k` times on every pair of operands and every
    trajectory, with the ancillas off and the phase restored, so that no run of `fuzz` fails, and
    `run_statement` returns these outputs exactly when they meet the demands. -/
theorem ancilla_statement (comments : List (List Char)) (hc : ∀ l ∈ comments, Comment l)
    (n k numSamples : ℕ) (hn : 3 ≤ n ∧ n ≤ 128) (hk : 1 ≤ k) (hsamples : 1 ≤ numSamples)
    (hcap : numSamples * caseBytes ≤ isizeMax) (circuitHash : List UInt8)
    (demanded : DemandedBounds) :
    ∃ c, parse (ancillaText comments n k) = pure c ∧
      (∀ x y, x < 2 ^ n → y < 2 ^ n → PassesAlways c (ancillaCase n k (x, y))) ∧
      (∀ operands : List (ℕ × ℕ), (∀ p ∈ operands, p.1 < 2 ^ n ∧ p.2 < 2 ^ n) → ∀ shots seed,
        fuzz c (operands.map (ancillaCase n k)) shots seed = some (.ok (.ofNat (operands.length * shots)))) ∧
      (runStatement c circuitHash ⟨k, n, numSamples, demanded⟩ =
        some (.ok [numSamples, 3 * n - 2, k * (n - 1), k * (10 * n - 18) + (2 * n + 2), 42]) ↔
      Meets ⟨numSamples, 3 * n - 2, k * (n - 1), k * (10 * n - 18) + (2 * n + 2)⟩ demanded) := by
  refine ⟨ancillaCircuit n k, (parsed_ancilla hn.1 hn.2 hk).parse hc,
    fun x y hx hy => passesAlways_ancilla hn.1 hn.2 k hx hy, fun operands hops shots seed => ?_, ?_⟩
  · have h := @fuzz_of_streams (ancillaCircuit n k) (operands.map (ancillaCase n k)) (by
      intro case hcase bits _
      obtain ⟨p, hp, rfl⟩ := List.mem_map.mp hcase
      exact passesAlways_ancilla hn.1 hn.2 k (hops p hp).1 (hops p hp).2 bits) shots seed
    rwa [List.length_map] at h
  have hcounts : countResources (ancillaCircuit n k) numSamples =
      ⟨numSamples, 3 * n - 2, k * (n - 1), k * (10 * n - 18) + (2 * n + 2)⟩ := by
    rw [countResources, ancillaCircuit]
    dsimp only
    rw [nonClifford_ancillaInsts hn.1, length_ancillaInsts hn.1]
  have h := runStatement_iff_meets (adderRegisters_ancilla n k) (addsAlways_ancilla hn.1 k)
    ⟨by omega, hn.2⟩ hsamples hcap circuitHash demanded
  rwa [hcounts] at h

/-! ## 5. The file -/

/-- The lines of iadd8_with_ancillae.kmx. -/
def iadd8AncillaLines : List String :=
  ["# Performs r0 += r1 (mod 256) with help from clean ancilla qubits.",
    "# This is a variant of the adder from https://arxiv.org/abs/1709.06648",
    "APPEND_TO_REGISTER q0 r0", "APPEND_TO_REGISTER q1 r0", "APPEND_TO_REGISTER q2 r0",
    "APPEND_TO_REGISTER q3 r0", "APPEND_TO_REGISTER q4 r0", "APPEND_TO_REGISTER q5 r0",
    "APPEND_TO_REGISTER q6 r0", "APPEND_TO_REGISTER q7 r0", "REGISTER r0",
    "APPEND_TO_REGISTER q8 r1", "APPEND_TO_REGISTER q9 r1", "APPEND_TO_REGISTER q10 r1",
    "APPEND_TO_REGISTER q11 r1", "APPEND_TO_REGISTER q12 r1", "APPEND_TO_REGISTER q13 r1",
    "APPEND_TO_REGISTER q14 r1", "APPEND_TO_REGISTER q15 r1", "REGISTER r1", "CX q15 q7", "R q16",
    "CCX q0 q8 q16", "CX q16 q9", "CX q16 q1", "R q17", "CCX q1 q9 q17", "CX q17 q16", "CX q16 q10",
    "CX q16 q2", "R q18", "CCX q2 q10 q18", "CX q18 q16", "CX q16 q11", "CX q16 q3", "R q19",
    "CCX q3 q11 q19", "CX q19 q16", "CX q16 q12", "CX q16 q4", "R q20", "CCX q4 q12 q20",
    "CX q20 q16", "CX q16 q13", "CX q16 q5", "R q21", "CCX q5 q13 q21", "CX q21 q16", "CX q16 q14",
    "CX q16 q6", "CX q16 q7", "CCX q6 q14 q7", "CX q16 q14", "CX q14 q6", "CX q21 q16",
    "HMR q21 b0", "CZ q5 q13 if b0", "CX q16 q13", "CX q13 q5", "CX q20 q16", "HMR q20 b0",
    "CZ q4 q12 if b0", "CX q16 q12", "CX q12 q4", "CX q19 q16", "HMR q19 b0", "CZ q3 q11 if b0",
    "CX q16 q11", "CX q11 q3", "CX q18 q16", "HMR q18 b0", "CZ q2 q10 if b0", "CX q16 q10",
    "CX q10 q2", "CX q17 q16", "HMR q17 b0", "CZ q1 q9 if b0", "CX q16 q9", "CX q9 q1",
    "HMR q16 b0", "CZ q0 q8 if b0", "CX q8 q0"]

/-- Its comments. -/
def ancillaComments : List (List Char) :=
  ["# Performs r0 += r1 (mod 256) with help from clean ancilla qubits.".toList,
    "# This is a variant of the adder from https://arxiv.org/abs/1709.06648".toList]

/-- The file is of the family. -/
example :
    unlines '\n' (iadd8AncillaLines.map String.toList) = ancillaText ancillaComments 8 1 := by
  decide +kernel

theorem comment_ancilla : ∀ l ∈ ancillaComments, Comment l := by
  unfold Comment
  decide

/-- The circuit of the test `fuzz_iadd8_with_ancillae_passes`. -/
theorem ancilla_statement_iadd8 : ∃ c, parse (ancillaText ancillaComments 8 1) = pure c ∧
    PassesAlways c (ancillaCase 8 1 (200, 100)) ∧
    fuzz c ([(100, 50), (255, 1)].map (ancillaCase 8 1)) 32 0xF00D = some (.ok 64) := by
  obtain ⟨c, hparse, hpass, hfuzz, -⟩ := ancilla_statement ancillaComments comment_ancilla 8 1 64
    (by decide) (by decide) (by decide) (by decide) [] ⟨64, 22, 7, 80⟩
  exact ⟨c, hparse, hpass 200 100 (by decide) (by decide),
    hfuzz [(100, 50), (255, 1)] (by decide) 32 0xF00D⟩

end GroverTax.Parity
