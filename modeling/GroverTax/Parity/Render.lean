/-
  File:      GroverTax/Parity/Render.lean
  Subject:   A GTV1 circuit as a .kmx text, and both parsers on it.

  The serialiser of src/python/grover_tax/serialise.py goes from a text to gates; this is the way
  back, for the gates that a text can have.

  * `itemOf`, `gateItems` -- a gate as a line, with its registers above it;
  * `both_read` -- **Rust and Python read a text of items as the items**;
  * **`gates_have_text`** -- **every list of gates that the transpiler can produce, with any
    registers, is what it makes of a text both parsers accept.**
-/
import GroverTax.Kickmix.Render
import GroverTax.Parity.Transpile

namespace GroverTax.Parity

open GroverTax.Lib GroverTax.Gtv1 GroverTax.Kickmix
open GroverTax.Python (KmxCircuit Item Reads isLineBreak isSpace codes codeOf codeLines split
  circuitOf circuitOf_eq parseKmx WIRE_MAX)

/-! ## 1. Texts of items -/

/-- The text of the items, below comments. -/
def itemText (comments : List (List Char)) (items : List Item) : List Char :=
  unlines '\n' comments ++ render (items.map toInst)

/-- A comment of both languages: no line ends in it. -/
def PlainComment (l : List Char) : Prop := Comment l ∧ ∀ c ∈ l, isLineBreak c = false

/-- The wires are GTV1's and the register ids are `usize` values. -/
structure FitsBoth (item : Item) : Prop where
  fits : item.Fits
  register : ∀ r, .register r ∈ item.targets → r < usizeSize

section Read

variable {item : Item} {items : List Item} {comments : List (List Char)}

theorem FitsBoth.index_lt (h : FitsBoth item) {t : Target} (ht : t ∈ item.targets) :
    t.index < usizeSize := by
  cases t with
  | qubit q => exact (h.fits q ht).trans_lt (by decide)
  | bit b => exact absurd ht (bit_notMem_targets item b)
  | register r => exact h.register r ht

theorem FitsBoth.wellFormed (h : FitsBoth item) : WellFormed (toInst item) where
  name := by
    rw [toInst, String.toList_ofList]
    exact item.isValidName_name
  targets := fun _ => h.index_lt
  condition := fun b hb => nomatch hb
  metadata := metadataOk_toInst item

/-- Python takes numerals of 4300 digits, and these have at most twenty. -/
theorem target_token {t : Target} (ht : t.index < usizeSize) (hb : ∀ b, t ≠ .bit b) :
    Python.target t.token = some t := by
  have hlen : ∀ n, n < usizeSize → (numeral n).length ≤ 4300 := by
    intro n hn
    have hdigits : (numeral n).length ≤ 20 :=
      (Nat.length_toDigits_le_iff (by decide) (by decide)).mpr
        (hn.trans (show usizeSize < 10 ^ 20 by decide))
    exact hdigits.trans (by decide)
  rw [Python.target_eq_some]
  cases t with
  | qubit q => exact ⟨numeral q, digits_numeral q, hlen q ht,
      Or.inl ⟨rfl, by rw [digitsValue_numeral]⟩⟩
  | bit b => exact absurd rfl (hb b)
  | register r => exact ⟨numeral r, digits_numeral r, hlen r ht,
      Or.inr (Or.inr ⟨rfl, by rw [digitsValue_numeral]⟩)⟩

theorem mapM_target_token : ∀ {ts : List Target},
    (∀ t ∈ ts, t.index < usizeSize ∧ ∀ b, t ≠ .bit b) →
      (ts.map Target.token).mapM Python.target = some ts
  | [], _ => rfl
  | t :: ts, h => by
      rw [List.forall_mem_cons] at h
      rw [List.map_cons, List.mapM_cons, target_token h.1.1 h.1.2, mapM_target_token h.2]
      rfl

theorem words_toInst (item : Item) :
    (toInst item).words = item.name :: item.targets.map Target.token := by
  rw [Instruction.words, toInst, String.toList_ofList]
  exact congrArg _ (List.append_nil _)

/-- **The words of an item read as the item.** -/
theorem FitsBoth.reads (h : FitsBoth item) : Reads (toInst item).words item where
  shape := ⟨_, words_toInst item, mapM_target_token fun _ ht =>
    ⟨h.index_lt ht, fun b e => bit_notMem_targets item b (e ▸ ht)⟩⟩
  fits := h.fits

/-- A line of an item has the item's words for Python too. -/
theorem FitsBoth.split_codeOf (h : FitsBoth item) :
    split (codeOf (toInst item).line) = (toInst item).words := by
  have hwf := h.wellFormed
  have hall : (toInst item).line.takeWhile (· ≠ '#') = (toInst item).line :=
    List.takeWhile_eq_self_iff.mpr fun c hc => decide_eq_true (hwf.mem_line hc).2.2
  rw [Python.split_codeOf, hall]
  refine tokens_intercalate (by decide) fun w hw => ⟨(hwf.word hw).1, fun c hc => ?_⟩
  have := (hwf.word hw).2.1 c hc
  simp only [isSpace, Bool.or_eq_false_iff, Bool.and_eq_false_iff, decide_eq_false_iff_not,
    beq_eq_false_iff_ne]
  omega

theorem FitsBoth.codes_line (h : FitsBoth item) :
    codes (toInst item).line = [codeOf (toInst item).line] := by
  rw [codes, if_neg fun hb => ?_]
  have hs := Python.codeOf_isEmpty.mp hb
  rw [h.split_codeOf, words_toInst] at hs
  cases hs

theorem isLineBreak_line (h : FitsBoth item) : ∀ c ∈ (toInst item).line, isLineBreak c = false := by
  intro c hc
  have := h.wellFormed.mem_line hc
  simp only [isLineBreak, Bool.or_eq_false_iff, Bool.and_eq_false_iff, decide_eq_false_iff_not,
    beq_eq_false_iff_ne]
  omega

theorem codes_comment {l : List Char} (h : Comment l) : codes l = [] := by
  cases l with
  | nil => rfl
  | cons c l =>
    obtain rfl := Option.some.inj h.1
    rfl

/-- The lines of code of the text are the items' lines. -/
theorem codeLines_itemText (hc : ∀ l ∈ comments, PlainComment l)
    (h : ∀ item ∈ items, FitsBoth item) :
    codeLines (itemText comments items) = items.map fun item => codeOf (toInst item).line := by
  have hlines : ∀ items : List Item, (∀ item ∈ items, FitsBoth item) →
      ((items.map toInst).map Instruction.line ++ [[]]).flatMap codes =
        items.map fun item => codeOf (toInst item).line := by
    intro items h
    induction items with
    | nil => rfl
    | cons item items ih =>
      rw [List.forall_mem_cons] at h
      rw [List.map_cons, List.map_cons, List.map_cons, List.cons_append, List.flatMap_cons,
        h.1.codes_line, ih h.2]
      rfl
  have hcomments : comments.flatMap codes = [] :=
    List.flatMap_eq_nil_iff.mpr fun l hl => codes_comment (hc l hl).1
  rw [Python.codeLines_eq, itemText, render, ← unlines_append, splitOnP_unlines (by decide),
    List.append_assoc, List.flatMap_append, hcomments, hlines items h, List.nil_append]
  intro l hl
  rcases List.mem_append.mp hl with hl | hl
  · exact (hc l hl).2
  · obtain ⟨inst, hi, rfl⟩ := List.mem_map.mp hl
    obtain ⟨item, hitem, rfl⟩ := List.mem_map.mp hi
    exact isLineBreak_line (h item hitem)

theorem parseKmx_itemText (hc : ∀ l ∈ comments, PlainComment l)
    (h : ∀ item ∈ items, FitsBoth item) :
    parseKmx (itemText comments items) = .ok (circuitOf items) := by
  refine Python.parseKmx_eq_ok.mpr ⟨items, ?_, rfl⟩
  rw [codeLines_itemText hc h, List.forall₂_map_left_iff, List.forall₂_same]
  intro item hi
  rw [(h item hi).split_codeOf]
  exact (h item hi).reads

/-- The circuit that Rust builds. -/
def rustCircuit (items : List Item) : Circuit where
  instructions := items.map toInst
  registers := items.foldl Item.declare ∅
  numQubits := (circuitOf items).numQubits
  numBits := 0

theorem parsed_rustCircuit (h : ∀ item ∈ items, FitsBoth item) : Parsed (rustCircuit items) := by
  have hfits : ∀ item ∈ items, item.Fits := fun item hi => (h item hi).fits
  have hmax : maxQubitOf (items.map toInst) ≤ WIRE_MAX := by
    rw [maxQubitOf_toInst hfits, Python.foldl_maxTarget_le_iff]
    refine ⟨by decide, fun q hq => ?_⟩
    obtain ⟨item, hi, hq⟩ := List.mem_flatMap.mp hq
    exact_mod_cast hfits item hi q hq
  refine ⟨fun inst hi => ?_, ?_, ?_, rfl, (foldl_declare_toInst _ _).symm, ?_, ?_⟩
  · obtain ⟨item, hitem, rfl⟩ := List.mem_map.mp hi
    exact (h item hitem).wellFormed
  · have hw : (WIRE_MAX : ℤ) + 1 < 2 ^ 63 := by decide
    exact (Int.add_le_add_right hmax 1).trans_lt hw
  · rw [rustCircuit, maxBitOf_toInst]
    decide
  · rw [rustCircuit, maxQubitOf_toInst hfits, circuitOf_eq]
  · rw [rustCircuit, maxBitOf_toInst]
    rfl

/-- **Rust and Python read a text of items as the items.** -/
theorem both_read (hc : ∀ l ∈ comments, PlainComment l) (h : ∀ item ∈ items, FitsBoth item) :
    parseKmx (itemText comments items) = .ok (circuitOf items) ∧
      parse (itemText comments items) = pure (rustCircuit items) :=
  ⟨parseKmx_itemText hc h, (parsed_rustCircuit h).parse fun l hl => (hc l hl).1⟩

end Read

/-! ## 2. Texts of gates -/

/-- The line of a gate. -/
def itemOf (g : Gate) : Item :=
  if g.opcode = OP_NOT then .x g.target
  else if g.opcode = OP_CNOT then .cx g.ctrlA g.target
  else .ccx g.ctrlA g.ctrlB g.target

/-- The gates a line can have. -/
structure Printable (g : Gate) : Prop where
  ne_nop : g.opcode ≠ OP_NOP
  opcode : g.opcode ≤ OP_TOFFOLI
  canonical : g.Canonical
  wires : ∀ w ∈ g.used, w ≤ WIRE_MAX

/-- A register declaration: its id and its members, least significant first. -/
def registerItems (r : ℕ) (members : List ℕ) : List Item :=
  members.map (fun q => .append q r) ++ [.register r]

theorem gate_itemOf {g : Gate} (h : Printable g) : (itemOf g).gate = some g := by
  obtain ⟨op, t, a, b⟩ := g
  have hcanon := h.canonical
  rcases Gate.opcode_cases ⟨op, t, a, b⟩ with e | e | e | e | e
  · exact absurd e h.ne_nop
  all_goals dsimp only at e
  · subst e
    have : a = NO_CTRL ∧ b = NO_CTRL := by
      simpa [Gate.Canonical, Gate.unused, OP_NOT, OP_NOP] using hcanon
    obtain ⟨rfl, rfl⟩ := this
    rfl
  · subst e
    have : b = NO_CTRL := by
      simpa [Gate.Canonical, Gate.unused, OP_NOT, OP_NOP, OP_CNOT] using hcanon
    subst this
    rfl
  · subst e
    rfl
  · exact absurd h.opcode (by show ¬ op ≤ _; omega)

theorem filterMap_gate_itemOf {gs : List Gate} (h : ∀ g ∈ gs, Printable g) :
    (gs.map itemOf).filterMap Item.gate = gs := by
  have e : gs.filterMap (Item.gate ∘ itemOf) = gs.filterMap some :=
    List.filterMap_congr fun g hg => gate_itemOf (h g hg)
  rw [List.filterMap_map, e, List.filterMap_some]

theorem fitsBoth_itemOf {g : Gate} (h : Printable g) : FitsBoth (itemOf g) where
  fits := fun q hq => h.wires q ((Python.item_used (gate_itemOf h) q).mpr hq)
  register := fun r hr => by
    unfold itemOf at hr
    split_ifs at hr <;> simp [Item.targets] at hr

/-- The transpiler makes gates of this kind only. -/
theorem printable_of_parseKmx {text : List Char} {py : KmxCircuit} (h : parseKmx text = .ok py) :
    ∀ g ∈ py.gates, Printable g := by
  obtain ⟨items, hreads, rfl⟩ := Python.parseKmx_eq_ok.mp h
  intro g hg
  rw [circuitOf_eq] at hg
  obtain ⟨item, hi, hgate⟩ := List.mem_filterMap.mp hg
  obtain ⟨code, -, hr⟩ := exists_of_forall₂_right hreads item hi
  obtain ⟨hop, hcanon⟩ := Python.item_unused hgate
  refine ⟨?_, hop, hcanon, fun w hw => hr.fits w ((Python.item_used hgate w).mp hw)⟩
  have hno : OP_NOT ≠ OP_NOP ∧ OP_CNOT ≠ OP_NOP ∧ OP_TOFFOLI ≠ OP_NOP := by decide
  cases item with
  | x t => cases hgate; exact hno.1
  | cx c t => cases hgate; exact hno.2.1
  | ccx c1 c2 t => cases hgate; exact hno.2.2
  | register r => cases hgate
  | append q r => cases hgate

/-- **The image of the transpiler**: a list of gates is that of a .kmx text exactly when every gate
    is printable, and then of the text of its own lines, which Rust accepts as well. -/
theorem gates_have_text (gs : List Gate) :
    ((∃ text py, parseKmx text = .ok py ∧ py.gates = gs) ↔ ∀ g ∈ gs, Printable g) ∧
    ((∀ g ∈ gs, Printable g) → ∃ py c, parseKmx (itemText [] (gs.map itemOf)) = .ok py ∧
      py.gates = gs ∧ parse (itemText [] (gs.map itemOf)) = pure c ∧
        c.instructions.length = gs.length) := by
  have hback : (∀ g ∈ gs, Printable g) → ∃ py c,
      parseKmx (itemText [] (gs.map itemOf)) = .ok py ∧ py.gates = gs ∧
        parse (itemText [] (gs.map itemOf)) = pure c ∧ c.instructions.length = gs.length := by
    intro h
    have hitems : ∀ item ∈ gs.map itemOf, FitsBoth item := by
      intro item hi
      obtain ⟨g, hg, rfl⟩ := List.mem_map.mp hi
      exact fitsBoth_itemOf (h g hg)
    obtain ⟨hpy, hrs⟩ := both_read (List.forall_mem_nil PlainComment) hitems
    refine ⟨_, _, hpy, ?_, hrs, ?_⟩
    · rw [circuitOf_eq]
      exact filterMap_gate_itemOf h
    · rw [rustCircuit, List.length_map, List.length_map]
  refine ⟨⟨?_, fun h => ?_⟩, hback⟩
  · rintro ⟨text, py, hpy, rfl⟩
    exact printable_of_parseKmx hpy
  · obtain ⟨py, c, hpy, hg, -⟩ := hback h
    exact ⟨_, py, hpy, hg⟩

end GroverTax.Parity
