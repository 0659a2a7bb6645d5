/-
  File:      GroverTax/Parity/Transpile.lean
  Subject:   A .kmx text run as a circuit of src/kickmix/src/lib.rs, and run as the gate list that
             src/python/grover_tax/kmx.py makes of it.

  * `PlainText`, `exists_items` -- on the texts of ASCII lines both parsers accept, Rust and Python
    read the same items;
  * `Holds` -- qubits and wires agree; `step_item` -- an item steps on both sides;
  * **`transpiled_run`** -- the two runs end with the same qubits, and the Rust run touches nothing
    else.
-/
import GroverTax.Gtv1.Adder
import GroverTax.Kickmix.Uncompute
import GroverTax.Parity.Kmx
import GroverTax.Python.KmxGates
import GroverTax.Python.SimReference

namespace GroverTax.Parity

open GroverTax.Lib GroverTax.Gtv1 GroverTax.Kickmix
open GroverTax.Python (KmxCircuit Item Reads isLineBreak circuitOf circuitOf_eq lt_numQubits
  item_used item_unused)

/-! ## 1. The items of a plain text -/

/-- Lines of printable ASCII, spaces and tabs. -/
def PlainText (text : List Char) : Prop :=
  ∀ c ∈ text, c = '\n' ∨ c = '\t' ∨ (0x20 ≤ c.toNat ∧ c.toNat ≤ 0x7E)

/-- A line of such a text is one line for Python as well. -/
theorem hiddenCodes_of_plain {text l : List Char} (h : PlainText text)
    (hl : l ∈ text.splitOn '\n') : hiddenCodes l = [] := by
  have hbreak : ∀ c ∈ l, isLineBreak c = false := by
    refine fun c hc => Bool.eq_false_iff.mpr fun hb => ?_
    have hne : c ≠ '\n' := by simpa using sep_of_mem_splitOnP hl c hc
    simp only [isLineBreak, Bool.or_eq_true, Bool.and_eq_true, decide_eq_true_eq, beq_iff_eq] at hb
    rcases h c (mem_of_mem_splitOnP hl c hc) with rfl | rfl | hr
    · exact hne rfl
    · have e : '\t'.toNat = 9 := rfl
      omega
    · omega
  have hone : l.splitOnP isLineBreak = [l] := List.splitOnP_eq_singleton hbreak
  unfold hiddenCodes
  rw [hone, hiddenParts]
  split_ifs <;> rfl

theorem Parts.eq_of_hidden {ls : List (List Char)} {vs hs ps : List Item} (h : Parts ls vs hs ps)
    (hh : ∀ l ∈ ls, hiddenCodes l = []) : ps = vs := by
  induction h with
  | nil => rfl
  | cons _ hhid _ ih =>
    rw [hh _ List.mem_cons_self] at hhid
    cases hhid
    rw [List.append_nil, ih fun l hl => hh l (List.mem_cons_of_mem _ hl)]

/-- **Both parsers read the same items.** -/
theorem exists_items {text : List Char} {py : KmxCircuit} {c : Circuit} (h : PlainText text)
    (hpy : Python.parseKmx text = .ok py) (hrs : parse text = pure c) :
    ∃ items, py = circuitOf items ∧ c.instructions = items.map toInst ∧
      c.numQubits = py.numQubits := by
  obtain ⟨ps, hps, rfl⟩ := Python.parseKmx_eq_ok.mp hpy
  rw [codeLines_eq_flatMap] at hps
  obtain ⟨vs, hs, hparts⟩ := exists_parts hps
  obtain rfl := hparts.eq_of_hidden fun l hl => hiddenCodes_of_plain h hl
  obtain ⟨insts, hp, -, -, hb⟩ := parse_eq_pure_iff.mp hrs
  have hlines : ∀ l ∈ text.splitOn '\n', LineAlike l := fun l hl =>
    lineAlike_of_reads (hp.line_of_mem hl) fun code hcode =>
      (hparts.reads.1.exists_item hl hcode).imp fun _ hi => hi.2
  obtain rfl := hp.unique (program_of_parts hparts hlines)
  refine ⟨ps, rfl, hb.instructions, ?_⟩
  rw [hb.numQubits, maxQubitOf_toInst hparts.fits, circuitOf_eq]

/-! ## 2. One item -/

/-- The qubits are the first wires. -/
def Holds (qubits : List Bool) (u : ℕ → Bool) : Prop :=
  ∀ i < qubits.length, qubits[i]? = some (u i)

theorem Holds.set {qubits : List Bool} {u : ℕ → Bool} (h : Holds qubits u) {t : ℕ}
    (ht : t < qubits.length) (v : Bool) : Holds (qubits.set t v) (Function.update u t v) := by
  intro i hi
  rw [List.length_set] at hi
  rw [List.getElem?_set]
  split_ifs with hti
  · rw [← hti, Function.update_self]
  · rw [Function.update_of_ne (Ne.symm hti)]
    exact h i hi

/-- A wire flipped on both sides. -/
theorem xorQubit_holds {s : State} {u : ℕ → Bool} (h : Holds s.qubits u) {t : ℕ}
    (ht : t < s.qubits.length) (v : Bool) :
    ∃ qs, s.xorQubit t v = some { s with qubits := qs } ∧ qs.length = s.qubits.length ∧
      Holds qs (Function.update u t (u t ^^ v)) := by
  refine ⟨s.qubits.set t (u t ^^ v), ?_, List.length_set .., h.set ht _⟩
  rw [State.xorQubit, State.readQubit, h t ht, Option.bind_eq_bind, Option.bind_some,
    State.writeQubit, if_pos ht]

section Run

variable {M : Type} [MeasureSource M] {s : State} {m : M} {u : ℕ → Bool}

/-- **An item does to the qubits what its gate does to the wires**, and nothing else. -/
theorem step_item {item : Item} (h : Holds s.qubits u) (hstack : s.condStack = [])
    (hitem : ∀ q, .qubit q ∈ item.targets → q < s.qubits.length) :
    ∃ qs, step (toInst item) s m = some ({ s with qubits := qs }, m) ∧
      qs.length = s.qubits.length ∧ Holds qs (item.gate.elim u fun g => g.apply u) := by
  have hact : s.active none = true := State.active_of_all (by rw [hstack]; rfl)
  cases item with
  | x t =>
    have ht := hitem t (by simp [Item.targets])
    obtain ⟨qs, e, hlen, hqs⟩ := xorQubit_holds h ht true
    refine ⟨qs, ?_, hlen, ?_⟩
    · refine (@step_gate M _ s m .x rfl [.qubit t] none).trans ?_
      rw [hact, if_pos rfl]
      simp [exec, q, e]
    · exact hqs
  | cx c t =>
    have hc := hitem c (by simp [Item.targets])
    have ht := hitem t (by simp [Item.targets])
    obtain ⟨qs, e, hlen, hqs⟩ := xorQubit_holds h ht (u c)
    refine ⟨qs, ?_, hlen, ?_⟩
    · refine (@step_gate M _ s m .cx rfl [.qubit c, .qubit t] none).trans ?_
      rw [hact, if_pos rfl]
      simp [exec, q, State.readQubit, h c hc, e]
    · simpa [Item.gate, Gate.apply, flipWire, Gate.controls, OP_CNOT, OP_NOP] using hqs
  | ccx c1 c2 t =>
    have hc1 := hitem c1 (by simp [Item.targets])
    have hc2 := hitem c2 (by simp [Item.targets])
    have ht := hitem t (by simp [Item.targets])
    obtain ⟨qs, e, hlen, hqs⟩ := xorQubit_holds h ht (u c1 && u c2)
    refine ⟨qs, ?_, hlen, ?_⟩
    · refine (@step_gate M _ s m .ccx rfl [.qubit c1, .qubit c2, .qubit t] none).trans ?_
      rw [hact, if_pos rfl]
      simp [exec, q, State.allOn_pair (h c1 hc1) (h c2 hc2), e]
    · simpa [Item.gate, Gate.apply, flipWire, Gate.controls, OP_CNOT, OP_NOP, OP_TOFFOLI] using hqs
  | register r => exact ⟨s.qubits, rfl, rfl, h⟩
  | append q r => exact ⟨s.qubits, rfl, rfl, h⟩

/-- **The same for a list of items.** -/
theorem run_items : ∀ {items : List Item} {s : State} {u : ℕ → Bool},
    Holds s.qubits u → s.condStack = [] →
      (∀ item ∈ items, ∀ q, .qubit q ∈ item.targets → q < s.qubits.length) →
        ∃ qs, runInstructions (items.map toInst) s m = some ({ s with qubits := qs }, m) ∧
          qs.length = s.qubits.length ∧ Holds qs (simulate (items.filterMap Item.gate) u)
  | [], s, u, h, _, _ => ⟨s.qubits, rfl, rfl, h⟩
  | item :: items, s, u, h, hstack, hitems => by
      rw [List.forall_mem_cons] at hitems
      obtain ⟨qs, e, hlen, hqs⟩ := step_item (m := m) h hstack hitems.1
      obtain ⟨qs', e', hlen', hqs'⟩ := run_items (s := { s with qubits := qs }) hqs hstack
        fun item hi q hq => hlen ▸ hitems.2 item hi q hq
      refine ⟨qs', run_cons_some.mpr ⟨_, e, e'⟩, hlen'.trans hlen, ?_⟩
      rw [List.filterMap_cons]
      cases hg : item.gate with
      | none =>
        rw [hg] at hqs'
        exact hqs'
      | some g =>
        rw [hg] at hqs'
        exact hqs'

end Run

/-! ## 3. The two runs -/

/-- **The transpilation preserves meaning.** -/
theorem transpiled_run {M : Type} [MeasureSource M] {text : List Char} {py : KmxCircuit}
    {c : Circuit} (htext : PlainText text) (hpy : Python.parseKmx text = .ok py)
    (hrs : parse text = pure c) {s : State} (m : M) {x : List UInt8} (hstack : s.condStack = [])
    (hlen : s.qubits.length = c.numQubits) (hfit : c.numQubits ≤ 8 * x.length)
    (hx : Holds s.qubits (wires x)) :
    ∃ y s', Python.run py.gates x = .ok y ∧ Kickmix.run c s m = some (s', m) ∧
      Holds s'.qubits (wires y) ∧ s'.qubits.length = c.numQubits ∧
      s'.phase = s.phase ∧ s'.bits = s.bits ∧ s'.condStack = s.condStack := by
  obtain ⟨items, rfl, hinsts, hq⟩ := exists_items htext hpy hrs
  have hitems : ∀ item ∈ items, ∀ q, .qubit q ∈ item.targets → q < s.qubits.length :=
    fun item hi q hmem => by
      rw [hlen, hq]
      exact lt_numQubits hi hmem
  obtain ⟨qs, hrun, hlen', hqs⟩ := run_items (m := m) hx hstack hitems
  have hrange : ∀ g ∈ (circuitOf items).gates, g.InRange (8 * x.length) := by
    intro g hg
    rw [circuitOf_eq] at hg
    obtain ⟨item, hi, hgate⟩ := List.mem_filterMap.mp hg
    refine ⟨(item_unused hgate).1, fun w hw => ?_⟩
    have := hitems item hi w ((item_used hgate w).mp hw)
    omega
  obtain ⟨y, hy, hwires⟩ := exists_simulate x hrange
  refine ⟨y, { s with qubits := qs }, Python.run_ok_iff.mpr ⟨hrange, hy, hwires⟩, ?_, ?_,
    hlen'.trans hlen, rfl, rfl, rfl⟩
  · rw [Kickmix.run, hinsts]
    exact hrun
  · rw [hwires, circuitOf_eq]
    exact hqs

/-- A gate whose target is its control. -/
def selfText : List Char :=
  ['C', 'X', ' ', 'q', '1', ' ', 'q', '1', '\n', '#', '\n', 'C', 'X', ' ', 'q', '0', ' ', 'q', '1']

theorem transpiled_run_self : ∃ py c y s', Python.parseKmx selfText = .ok py ∧
    parse selfText = pure c ∧ Python.run py.gates [3] = .ok y ∧
    Kickmix.run c ⟨[true, true], [], true, []⟩ (SplitMix64.new 0) =
      some (s', SplitMix64.new 0) ∧ Holds s'.qubits (wires y) ∧ s'.phase = true := by
  have hpy : ∃ py, Python.parseKmx selfText = .ok py := ⟨_, rfl⟩
  have hrs : ∃ c, parse selfText = pure c ∧ c.numQubits = 2 := ⟨_, rfl, rfl⟩
  have htext : PlainText selfText := by
    intro c hc
    simp only [selfText, List.mem_cons, List.not_mem_nil, or_false] at hc
    rcases hc with rfl | rfl | rfl | rfl | rfl | rfl | rfl | rfl | rfl | rfl | rfl | rfl | rfl |
      rfl | rfl | rfl | rfl | rfl | rfl <;> decide
  have hx : Holds [true, true] (wires [3]) := by
    unfold Holds
    decide
  obtain ⟨py, hpy⟩ := hpy
  obtain ⟨c, hrs, hn⟩ := hrs
  obtain ⟨y, s', hy, hrun, hh, -, hphase, -, -⟩ :=
    transpiled_run (s := ⟨[true, true], [], true, []⟩) htext hpy hrs (SplitMix64.new 0) rfl
      (by rw [hn]; rfl) (by rw [hn]; decide) hx
  exact ⟨py, c, y, s', hpy, hrs, hy, hrun, hh, hphase⟩

end GroverTax.Parity
