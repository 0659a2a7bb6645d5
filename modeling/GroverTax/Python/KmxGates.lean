/-
  File:      GroverTax/Python/KmxGates.lean
  Subject:   The gates `parse_kmx` emits against the slot matrix of GTV1: a used slot names a wire,
             an unused one carries the sentinel.

  * `Gate.SlotsOk` -- one row of the matrix;
  * `inRange_of_parseKmx`, `fits_of_parseKmx` -- the gates are in range, and fit the records;
  * `item_slotsOk` -- a gate line fills its slots in order, so only the id `0xFFFF` can go wrong;
  * `parseKmx_slotsOk_iff` -- **the emitted gates are well formed exactly when no gate line names
    qubit 65535**: `_check_wire_id` admits the sentinel as a wire.
-/
import GroverTax.Gtv1.Format
import GroverTax.Python.Kmx

namespace GroverTax.Gtv1

/-- The slots of a gate on `n` wires: those its opcode uses name one of the wires, none of them by
    the sentinel; the others hold the sentinel. -/
structure Gate.SlotsOk (g : Gate) (n : ℕ) : Prop where
  opcode : g.opcode ≤ OP_TOFFOLI
  used : ∀ w ∈ g.used, w < n ∧ w ≠ NO_CTRL
  unused : g.Canonical

end GroverTax.Gtv1

namespace GroverTax.Python

open GroverTax.Lib GroverTax.Gtv1
open GroverTax.Kickmix (Target)

section Slots

variable {item : Item} {g : Gate} {n : ℕ}

/-- The operands of a gate line are the slots its opcode uses, the target among them. -/
theorem item_used (h : item.gate = some g) (w : ℕ) : w ∈ g.used ↔ .qubit w ∈ item.targets := by
  cases item with
  | x t =>
    cases h
    simp [Gate.used, Gate.controls, Item.targets, OP_NOP, OP_NOT, OP_CNOT, OP_TOFFOLI]
  | cx c t =>
    cases h
    simp [Gate.used, Gate.controls, Item.targets, OP_NOP, OP_CNOT, or_comm]
  | ccx c1 c2 t =>
    cases h
    simp only [Gate.used, Gate.controls, Item.targets, OP_NOP, OP_CNOT, OP_TOFFOLI]
    simp only [List.mem_cons, Target.qubit.injEq, List.not_mem_nil, or_false]
    norm_num
    tauto
  | register r => cases h
  | append q r => cases h

theorem item_unused (h : item.gate = some g) : g.opcode ≤ OP_TOFFOLI ∧ g.Canonical := by
  cases item with
  | x t =>
    cases h
    exact ⟨(by decide : OP_NOT ≤ OP_TOFFOLI), (Gate.canonical_not rfl).mpr ⟨rfl, rfl⟩⟩
  | cx c t =>
    cases h
    exact ⟨(by decide : OP_CNOT ≤ OP_TOFFOLI), (Gate.canonical_cnot rfl).mpr rfl⟩
  | ccx c1 c2 t =>
    cases h
    exact ⟨Nat.le_refl _, Gate.canonical_toffoli rfl⟩
  | register r => cases h
  | append q r => cases h

/-- **A gate line fills its slots well** when it does not name the sentinel. -/
theorem item_slotsOk (h : item.gate = some g) (hn : ∀ q, .qubit q ∈ item.targets → q < n) :
    g.SlotsOk n ↔ .qubit NO_CTRL ∉ item.targets := by
  obtain ⟨hop, hun⟩ := item_unused h
  constructor
  · intro hok hmem
    exact (hok.used NO_CTRL ((item_used h NO_CTRL).mpr hmem)).2 rfl
  · intro hno
    refine ⟨hop, fun w hw => ?_, hun⟩
    have hw := (item_used h w).mp hw
    exact ⟨hn w hw, fun e => hno (e ▸ hw)⟩

/-- Every qubit a circuit names is below its count. -/
theorem lt_numQubits {items : List Item} (hi : item ∈ items) {q : ℕ}
    (hq : .qubit q ∈ item.targets) : q < (circuitOf items).numQubits := by
  rw [circuitOf_eq]
  have h := (@foldl_maxTarget_le_iff (-1) _
    (items.flatMap Item.targets)).mp (le_refl _) |>.2 q (List.mem_flatMap.mpr ⟨item, hi, hq⟩)
  dsimp only
  omega

theorem item_fits (h : item.gate = some g) (hfits : item.Fits) : g.Fits := by
  have hlt : ∀ q, .qubit q ∈ item.targets → q < 2 ^ 16 := fun q hq => Nat.lt_succ_of_le (hfits q hq)
  have hnone : NO_CTRL < 2 ^ 16 := by decide
  obtain ⟨hop, -⟩ := item_unused h
  cases item with
  | x t =>
    cases h
    exact ⟨hop, hlt t (by simp [Item.targets]), hnone, hnone⟩
  | cx c t =>
    cases h
    exact ⟨hop, hlt t (by simp [Item.targets]), hlt c (by simp [Item.targets]), hnone⟩
  | ccx c1 c2 t =>
    cases h
    exact ⟨hop, hlt t (by simp [Item.targets]), hlt c1 (by simp [Item.targets]),
      hlt c2 (by simp [Item.targets])⟩
  | register r => cases h
  | append q r => cases h

variable {text : List Char} {c : KmxCircuit}

theorem exists_item (hparse : parseKmx text = .ok c) (hg : g ∈ c.gates) :
    ∃ items item, c = circuitOf items ∧ item ∈ items ∧ item.gate = some g ∧ item.Fits := by
  obtain ⟨items, hitems, rfl⟩ := parseKmx_eq_ok.mp hparse
  rw [circuitOf_eq] at hg
  obtain ⟨item, hi, hgate⟩ := List.mem_filterMap.mp hg
  obtain ⟨code, -, hr⟩ := exists_of_forall₂_right hitems item hi
  exact ⟨items, item, rfl, hi, hgate, hr.fits⟩

/-- **The gates of a parsed circuit are on its qubits.** -/
theorem inRange_of_parseKmx (hparse : parseKmx text = .ok c) :
    ∀ g ∈ c.gates, g.InRange c.numQubits := by
  intro g hg
  obtain ⟨items, item, rfl, hi, hgate, -⟩ := exists_item hparse hg
  refine ⟨(item_unused hgate).1, fun w hw => ?_⟩
  exact lt_numQubits hi ((item_used hgate w).mp hw)

/-- **They fit the records of GTV1.** -/
theorem fits_of_parseKmx (hparse : parseKmx text = .ok c) : ∀ g ∈ c.gates, g.Fits := by
  intro g hg
  obtain ⟨-, item, -, -, hgate, hfits⟩ := exists_item hparse hg
  exact item_fits hgate hfits

end Slots

/-! ## The condition -/

/-- No gate line names qubit 65535. -/
def SparesSentinel (text : List Char) : Prop :=
  ∀ code ∈ codeLines text, ∀ name rest, split code = name :: rest → name ≠ appendName →
    ∀ token ∈ rest, target token ≠ some (.qubit NO_CTRL)

section Condition

variable {text : List Char} {items : List Item}

/-- A line that appends to a register is no gate line, and the only other one that names a qubit. -/
theorem gate_isSome_iff {item : Item} {q : ℕ} (hq : .qubit q ∈ item.targets) :
    item.gate.isSome = true ↔ item.name ≠ appendName := by
  cases item with
  | x t => simp [Item.gate, Item.name, appendName]
  | cx c t => simp [Item.gate, Item.name, appendName]
  | ccx c1 c2 t => simp [Item.gate, Item.name, appendName]
  | register r => simp [Item.targets] at hq
  | append q r => simp [Item.gate, Item.name]

theorem sparesSentinel_iff
    (h : List.Forall₂ (fun code item => Reads (split code) item) (codeLines text) items) :
    SparesSentinel text ↔
      ∀ item ∈ items, item.gate.isSome = true → .qubit NO_CTRL ∉ item.targets := by
  constructor
  · intro hs item hi hg hmem
    obtain ⟨code, hcode, hr⟩ := exists_of_forall₂_right h _ hi
    obtain ⟨rest, hrest, hts⟩ := hr.shape
    obtain ⟨token, htoken, e⟩ := exists_of_mem_mapM hts _ hmem
    exact hs code hcode _ rest hrest ((gate_isSome_iff hmem).mp hg) token htoken e
  · intro hall code hcode name rest hsplit hname token htoken e
    obtain ⟨item, hi, hr⟩ := exists_of_forall₂_left h _ hcode
    obtain ⟨rest', hrest, hts⟩ := hr.shape
    obtain ⟨rfl, rfl⟩ := List.cons.inj (hsplit.symm.trans hrest)
    obtain ⟨t, ht, e'⟩ := exists_image_of_mapM hts token htoken
    obtain rfl := Option.some.inj (e.symm.trans e')
    exact hall item hi ((gate_isSome_iff ht).mpr hname) ht

/-- **The emitted gates satisfy the slot matrix exactly when no gate line names the sentinel.** -/
theorem parseKmx_slotsOk_iff {c : KmxCircuit} (h : parseKmx text = .ok c) :
    (∀ g ∈ c.gates, g.SlotsOk c.numQubits) ↔ SparesSentinel text := by
  obtain ⟨items, hitems, rfl⟩ := parseKmx_eq_ok.mp h
  rw [sparesSentinel_iff hitems]
  have hgates : (circuitOf items).gates = items.filterMap Item.gate := by rw [circuitOf_eq]
  rw [hgates]
  constructor
  · intro hall item hi hg
    obtain ⟨g, hg⟩ := Option.isSome_iff_exists.mp hg
    exact (item_slotsOk hg fun q hq => lt_numQubits hi hq).mp
      (hall g (List.mem_filterMap.mpr ⟨item, hi, hg⟩))
  · intro hall g hg
    obtain ⟨item, hi, hg⟩ := List.mem_filterMap.mp hg
    exact (item_slotsOk hg fun q hq => lt_numQubits hi hq).mpr
      (hall item hi (by rw [hg]; rfl))

end Condition

theorem parseKmx_slotsOk_iff_gate : ∃ c, parseKmx ['X', ' ', 'q', '0'] = .ok c ∧
    ((∀ g ∈ c.gates, g.SlotsOk c.numQubits) ↔ SparesSentinel ['X', ' ', 'q', '0']) :=
  ⟨_, rfl, parseKmx_slotsOk_iff rfl⟩

/-- `X q65535` is accepted, and its target is the sentinel. -/
theorem gate_on_sentinel : ∃ c, parseKmx ['X', ' ', 'q', '6', '5', '5', '3', '5'] = .ok c ∧
    ¬ ∀ g ∈ c.gates, g.SlotsOk c.numQubits := by
  refine ⟨_, rfl, fun h => ?_⟩
  exact ((h ⟨OP_NOT, 65535, NO_CTRL, NO_CTRL⟩ (by decide)).used 65535 (by decide)).2 rfl

end GroverTax.Python
