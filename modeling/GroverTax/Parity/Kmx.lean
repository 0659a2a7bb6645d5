/-
  File:      GroverTax/Parity/Kmx.lean
  Subject:   The Rust and the Python .kmx parser on one text.

  On a line of the Rust parser the Python parser sees parts. The parts up to the first `#` are
  visible to both; those after it are in a comment for Rust alone.

  * `visibleCodes`, `hiddenCodes` -- the lines of code of both kinds;
  * `ReadAlike` -- **the texts both sides read alike**, among those the Python parser accepts;
  * `parse_agree_iff` -- Rust accepts, with the same circuit, exactly those.
-/
import GroverTax.Parity.Resource
import GroverTax.Python.Kmx

namespace GroverTax.Parity

open GroverTax.Lib GroverTax.Gtv1
open GroverTax.Kickmix
open GroverTax.Python (isSpace isLineBreak codes codeOf split codeLines KmxCircuit Item Reads
  circuitOf registerName appendName WIRE_MAX circuitOf_eq foldl_maxTarget_le_iff)

/-! ## 1. Visible and hidden parts -/

/-- The parts up to the first that has a `#`. -/
def visibleParts : List (List Char) → List (List Char)
  | [] => []
  | p :: ps => p :: if '#' ∈ p then [] else visibleParts ps

/-- The parts after it. -/
def hiddenParts : List (List Char) → List (List Char)
  | [] => []
  | p :: ps => if '#' ∈ p then ps else hiddenParts ps

/-- The lines of code of a line of Rust that Rust reads as well. -/
def visibleCodes (l : List Char) : List (List Char) :=
  (visibleParts (l.splitOnP isLineBreak)).flatMap codes

/-- The lines of code Python finds in the comment of a line of Rust. -/
def hiddenCodes (l : List Char) : List (List Char) :=
  (hiddenParts (l.splitOnP isLineBreak)).flatMap codes

theorem visibleParts_append_hiddenParts (ps : List (List Char)) :
    visibleParts ps ++ hiddenParts ps = ps := by
  induction ps with
  | nil => rfl
  | cons p ps ih =>
    rw [visibleParts, hiddenParts]
    split_ifs
    · rfl
    · rw [List.cons_append, ih]

theorem lineCodes_eq (l : List Char) : lineCodes l = visibleCodes l ++ hiddenCodes l := by
  rw [visibleCodes, hiddenCodes, ← List.flatMap_append, visibleParts_append_hiddenParts, lineCodes]

theorem flatMap_split_codes (ps : List (List Char)) :
    (ps.flatMap codes).flatMap split = ps.flatMap fun p => split (codeOf p) := by
  rw [List.flatMap_assoc]
  congr 1
  funext p
  by_cases h : codes p = []
  · rw [h, Python.codes_eq_nil.mp h]
    rfl
  · unfold codes at h ⊢
    split_ifs at h ⊢
    · exact absurd rfl h
    · rw [List.flatMap_singleton]

theorem partTokens_eq (ps : List (List Char)) :
    partTokens ps = (visibleParts ps).flatMap fun p => split (codeOf p) := by
  induction ps with
  | nil => rfl
  | cons p ps ih =>
    rw [partTokens, visibleParts, List.flatMap_cons]
    split_ifs
    · rfl
    · rw [ih]

/-- **The code before the `#` has the tokens of the visible lines of code.** -/
theorem flatMap_split_visibleCodes (l : List Char) :
    (visibleCodes l).flatMap split = tokens isSpace (l.takeWhile (· ≠ '#')) := by
  rw [visibleCodes, flatMap_split_codes, ← partTokens_eq, partTokens_splitOnP]

/-! ## 2. Items as instructions -/

/-- The instruction of an item. -/
def toInst (item : Item) : Instruction := ⟨String.ofList item.name, item.targets, none⟩

theorem metadataOk_toInst (item : Item) : MetadataOk (String.ofList item.name) item.targets := by
  have hname : ∀ s : List Char, (String.ofList s = "REGISTER" ↔ s = registerName) ∧
      (String.ofList s = "APPEND_TO_REGISTER" ↔ s = appendName) := fun s =>
    ⟨String.ofList_inj, String.ofList_inj⟩
  rw [MetadataOk, (hname _).1, (hname _).2]
  cases item with
  | register r => exact ⟨fun _ => ⟨r, rfl⟩, fun h => by simp [Item.name, registerName, appendName] at h⟩
  | append q r =>
    exact ⟨fun h => by simp [Item.name, registerName, appendName] at h,
      fun _ => ⟨.qubit q, r, rfl, by simp⟩⟩
  | x t => simp [Item.name, registerName, appendName]
  | cx c t => simp [Item.name, registerName, appendName]
  | ccx c1 c2 t => simp [Item.name, registerName, appendName]

/-- The register ids of the tokens are `usize` values. -/
def SmallRegisters (toks : List (List Char)) : Prop :=
  ∀ ds, Digits ds → 'r' :: ds ∈ toks → digitsValue ds < usizeSize

/-- A target of Python is a target of Rust, if its id is a `usize`. -/
theorem targetOf_of_target {tok : List Char} {t : Target} (h : Python.target tok = some t)
    (hq : ∀ q, t = .qubit q → q < usizeSize) (hb : ∀ b, t ≠ .bit b)
    (hr : ∀ ds, Digits ds → tok = 'r' :: ds → digitsValue ds < usizeSize) :
    targetOf tok = some t := by
  obtain ⟨ds, hd, -, hk⟩ := Python.target_eq_some.mp h
  rw [targetOf_eq_some]
  rcases hk with ⟨rfl, rfl⟩ | ⟨-, rfl⟩ | ⟨rfl, rfl⟩
  · exact ⟨ds, _, parseUsize_eq_some.mpr ⟨ds, Or.inl rfl, hd, hq _ rfl, rfl⟩, Or.inl ⟨rfl, rfl⟩⟩
  · exact absurd rfl (hb _)
  · exact ⟨ds, _, parseUsize_eq_some.mpr ⟨ds, Or.inl rfl, hd, hr ds hd rfl, rfl⟩,
      Or.inr (Or.inr ⟨rfl, rfl⟩)⟩

theorem bit_notMem_targets (item : Item) (b : ℕ) : .bit b ∉ item.targets := by
  cases item <;> simp [Python.Item.targets]

/-- **What Python reads as an item denotes its instruction for Rust.** -/
theorem denotes_of_reads {toks : List (List Char)} {item : Item} (h : Reads toks item)
    (hr : SmallRegisters toks) : Kickmix.Denotes toks (toInst item) := by
  obtain ⟨⟨rest, rfl, hts⟩, hfits⟩ := h
  have hts' : rest.mapM targetOf = some item.targets := by
    rw [← hts]
    refine mapM_congr_of_some hts fun tok ht t hm e => ?_
    refine targetOf_of_target e (fun q hq => ?_) (fun b hb => ?_) fun ds hd hds => ?_
    · have := hfits q (hq ▸ hm)
      exact this.trans_lt (by decide)
    · exact bit_notMem_targets item b (hb ▸ hm)
    · exact hr ds hd (List.mem_cons_of_mem _ (hds ▸ ht))
  exact .intro item.isValidName_name (.never (Python.ifToken_notMem hts)) hts'
    (metadataOk_toInst item)

/-! ## 3. The items of a text -/

/-- The codes read as the items, one each. -/
abbrev ReadsAll (codes : List (List Char)) (items : List Item) : Prop :=
  List.Forall₂ (fun code item => Reads (split code) item) codes items

/-- The items of a list of lines of Rust: the visible ones, the hidden ones, and all in order. -/
inductive Parts : List (List Char) → List Item → List Item → List Item → Prop
  | nil : Parts [] [] [] []
  | cons {l ls visible hidden vs hs ps} : ReadsAll (visibleCodes l) visible →
      ReadsAll (hiddenCodes l) hidden → Parts ls vs hs ps →
      Parts (l :: ls) (visible ++ vs) (hidden ++ hs) (visible ++ hidden ++ ps)

theorem exists_parts {ls : List (List Char)} {ps : List Item}
    (h : ReadsAll (ls.flatMap lineCodes) ps) : ∃ vs hs, Parts ls vs hs ps := by
  induction ls generalizing ps with
  | nil =>
    cases h
    exact ⟨[], [], .nil⟩
  | cons l ls ih =>
    rw [List.flatMap_cons, lineCodes_eq] at h
    obtain ⟨line, rest, rfl, hline, hrest⟩ := forall₂_append_left h
    obtain ⟨visible, hidden, rfl, hv, hh⟩ := forall₂_append_left hline
    obtain ⟨vs, hs, hp⟩ := ih hrest
    exact ⟨visible ++ vs, hidden ++ hs, .cons hv hh hp⟩

section Merge

variable {ls : List (List Char)} {vs hs ps : List Item}

theorem Parts.mem_iff (h : Parts ls vs hs ps) {item : Item} :
    item ∈ ps ↔ item ∈ vs ∨ item ∈ hs := by
  induction h with
  | nil => simp
  | cons _ _ _ ih =>
    simp only [List.mem_append, ih]
    tauto

/-- Hidden items that `f` ignores leave no trace. -/
theorem Parts.filterMap_eq {B : Type} {f : Item → Option B} (h : Parts ls vs hs ps)
    (hf : ∀ item ∈ hs, f item = none) : ps.filterMap f = vs.filterMap f := by
  induction h with
  | nil => rfl
  | @cons l ls visible hidden vs hs ps _ _ _ ih =>
    rw [List.forall_mem_append] at hf
    rw [List.filterMap_append, List.filterMap_append, List.filterMap_append, ih hf.2,
      List.filterMap_eq_nil_iff.mpr hf.1, List.append_nil]

/-- The hidden items that `f` does not ignore are as many as the items exceed the visible ones. -/
theorem Parts.length_filterMap {B : Type} (f : Item → Option B) (h : Parts ls vs hs ps) :
    (ps.filterMap f).length = (vs.filterMap f).length + (hs.filterMap f).length := by
  induction h with
  | nil => rfl
  | cons _ _ _ ih =>
    simp only [List.filterMap_append, List.length_append, ih]
    omega

theorem Parts.ignored {B : Type} {f : Item → Option B} (h : Parts ls vs hs ps)
    (e : vs.filterMap f = ps.filterMap f) : ∀ item ∈ hs, f item = none := by
  have hlen := h.length_filterMap f
  rw [e] at hlen
  exact List.filterMap_eq_nil_iff.mp (List.length_eq_zero_iff.mp (by omega))

end Merge

/-! ## 4. What Rust reads of the visible lines -/

/-- A line that both sides can read: no separator of ASCII in its code, one line of code at most,
    and register ids that fit a `usize`. -/
structure LineAlike (l : List Char) : Prop where
  space : ∀ c ∈ l.takeWhile (· ≠ '#'), ¬(0x1C ≤ c.toNat ∧ c.toNat ≤ 0x1F)
  single : (visibleCodes l).length ≤ 1
  registers : ∀ code ∈ visibleCodes l, SmallRegisters (split code)

theorem isWhitespace_eq {c : Char} (h : ¬(0x1C ≤ c.toNat ∧ c.toNat ≤ 0x1F)) :
    isSpace c = isWhitespace c := by
  rw [Bool.eq_iff_iff]
  simp only [isWhitespace, isSpace, Bool.or_eq_true, Bool.and_eq_true, decide_eq_true_eq,
    beq_iff_eq]
  omega

/-- The tokens of Rust are those of the visible lines of code. -/
theorem lineTokens_eq {l : List Char}
    (h : ∀ c ∈ l.takeWhile (· ≠ '#'), ¬(0x1C ≤ c.toNat ∧ c.toNat ≤ 0x1F)) :
    lineTokens l = (visibleCodes l).flatMap split := by
  rw [flatMap_split_visibleCodes]
  exact tokens_congr fun c hc => (isWhitespace_eq (h c hc)).symm

/-- **On lines of this kind Rust reads the visible items.** -/
theorem program_of_parts {ls : List (List Char)} {vs hs ps : List Item} (h : Parts ls vs hs ps)
    (hl : ∀ l ∈ ls, LineAlike l) : Program ls (vs.map toInst) := by
  induction h with
  | nil => exact .nil
  | @cons l ls visible hidden vs hs ps hv _ _ ih =>
    obtain ⟨⟨hspace, hsingle, hreg⟩, hls⟩ := List.forall_mem_cons.mp hl
    have htok := lineTokens_eq hspace
    cases hcodes : visibleCodes l with
    | nil =>
      rw [hcodes] at hv htok
      cases hv
      exact .blank htok (ih hls)
    | cons code rest =>
      obtain rfl : rest = [] := by
        rw [hcodes, List.length_cons] at hsingle
        exact List.length_eq_zero_iff.mp (by omega)
      rw [hcodes] at hv
      obtain ⟨item, _, hr, hnil, rfl⟩ := List.forall₂_cons_left_iff.mp hv
      cases hnil
      have hd := denotes_of_reads hr (hreg code (hcodes ▸ List.mem_cons_self))
      rw [hcodes, List.flatMap_singleton] at htok
      exact .line (htok.symm ▸ hd) (ih hls)

theorem r_token_lt {toks : List (List Char)} {inst : Instruction} (h : Kickmix.Denotes toks inst) :
    SmallRegisters toks := by
  intro ds hd hm
  rcases h.token_cases hm with hv | e | ⟨t, ht⟩
  · simp [isValidName, isAsciiUppercase] at hv
  · cases e
  · obtain ⟨rest, id, hid, hk⟩ := targetOf_eq_some.mp ht
    obtain ⟨ds', hds, -, hlt, -⟩ := parseUsize_eq_some.mp hid
    obtain rfl : ds = rest := by
      rcases hk with ⟨e, -⟩ | ⟨e, -⟩ | ⟨e, -⟩
      · cases e
      · cases e
      · exact (List.cons.inj e).2
    rcases hds with rfl | rfl
    · exact hlt
    · exact absurd rfl (hd.ne_plus ds')

/-- **A line that both sides read is of this kind.** -/
theorem lineAlike_of_reads {l : List Char}
    (hrust : lineTokens l = [] ∨ ∃ inst, Kickmix.Denotes (lineTokens l) inst)
    (hpython : ∀ code ∈ visibleCodes l, ∃ item, Reads (split code) item) : LineAlike l := by
  have hplain : ∀ tok ∈ lineTokens l, Plain tok := by
    intro tok ht
    rcases hrust with hb | ⟨inst, hd⟩
    · rw [hb] at ht
      cases ht
    · exact plain_token hd ht
  have hspace : ∀ c ∈ l.takeWhile (· ≠ '#'), ¬(0x1C ≤ c.toNat ∧ c.toNat ≤ 0x1F) := by
    intro c hc hrange
    have hw : isWhitespace c = false := by
      simp only [isWhitespace, Bool.or_eq_false_iff, Bool.and_eq_false_iff,
        decide_eq_false_iff_not, beq_eq_false_iff_ne]
      omega
    obtain ⟨tok, ht, hct⟩ := exists_mem_tokens hc hw
    have := hplain tok ht c hct
    omega
  have htok := lineTokens_eq hspace
  refine ⟨hspace, ?_, ?_⟩
  · by_contra hlong
    obtain ⟨a, b, more, hcodes⟩ : ∃ a b more, visibleCodes l = a :: b :: more := by
      rcases hv : visibleCodes l with _ | ⟨a, _ | ⟨b, more⟩⟩
      · simp [hv] at hlong
      · simp [hv] at hlong
      · exact ⟨a, b, more, rfl⟩
    rw [hcodes] at htok hpython
    obtain ⟨item, ⟨resta, ha, -⟩, -⟩ := hpython a List.mem_cons_self
    obtain ⟨item', ⟨restb, hb, -⟩, -⟩ :=
      hpython b (List.mem_cons_of_mem _ List.mem_cons_self)
    rw [List.flatMap_cons, List.flatMap_cons, ha, hb, List.cons_append, List.cons_append] at htok
    rcases hrust with hblank | ⟨inst, hd⟩
    · rw [hblank] at htok
      cases htok
    · rw [htok] at hd
      have := hd.tail_not_name (List.mem_append_right resta List.mem_cons_self)
      rw [item'.isValidName_name] at this
      cases this
  · intro code hcode ds hd hm
    have hmem : 'r' :: ds ∈ lineTokens l := by
      rw [htok]
      exact List.mem_flatMap.mpr ⟨code, hcode, hm⟩
    rcases hrust with hblank | ⟨inst, hden⟩
    · rw [hblank] at hmem
      cases hmem
    · exact r_token_lt hden ds hd hmem

/-- The visible items read the visible lines, and the hidden ones the hidden lines. -/
theorem Parts.reads {ls : List (List Char)} {vs hs ps : List Item} (h : Parts ls vs hs ps) :
    ReadsAll (ls.flatMap visibleCodes) vs ∧ ReadsAll (ls.flatMap hiddenCodes) hs := by
  induction h with
  | nil => exact ⟨.nil, .nil⟩
  | cons hv hh _ ih =>
    rw [List.flatMap_cons, List.flatMap_cons]
    exact ⟨List.rel_append hv ih.1, List.rel_append hh ih.2⟩

section ReadsAll

variable {ls : List (List Char)} {items : List Item} {f : List Char → List (List Char)}

theorem ReadsAll.exists_item (h : ReadsAll (ls.flatMap f) items) {l code : List Char} (hl : l ∈ ls)
    (hcode : code ∈ f l) : ∃ item ∈ items, Reads (split code) item :=
  exists_of_forall₂_left h code (List.mem_flatMap.mpr ⟨l, hl, hcode⟩)

theorem ReadsAll.exists_code (h : ReadsAll (ls.flatMap f) items) {item : Item}
    (hi : item ∈ items) : ∃ l ∈ ls, ∃ code ∈ f l, Reads (split code) item := by
  obtain ⟨code, hcode, hr⟩ := exists_of_forall₂_right h item hi
  obtain ⟨l, hl, hcode⟩ := List.mem_flatMap.mp hcode
  exact ⟨l, hl, code, hcode, hr⟩

end ReadsAll

/-! ## 5. Circuits -/

/-- The register an item declares or appends to. -/
def names (r : ℕ) : Item → Bool
  | .register r' => r' == r
  | .append _ r' => r' == r
  | _ => false

/-- The member an item appends to a register. -/
def member (r : ℕ) : Item → Option ℕ
  | .append q r' => if r' = r then some q else none
  | _ => none

theorem getElem?_declare (registers : Std.ExtTreeMap ℕ (List ℕ)) (item : Item) (r : ℕ) :
    (item.declare registers)[r]? = if names r item = true then
      some (registers[r]?.getD [] ++ (member r item).toList) else registers[r]? := by
  cases item with
  | register r' =>
    simp only [Item.declare, entryOrDefault, Std.ExtTreeMap.getElem?_alter, compare_eq_iff_eq, names,
      beq_iff_eq, member, Option.toList_none, List.append_nil]
    split_ifs with h
    · rw [h]
    · rfl
  | append q r' =>
    simp only [Item.declare, entryPush, Std.ExtTreeMap.getElem?_alter, compare_eq_iff_eq, names,
      beq_iff_eq, member]
    split_ifs with h
    · rw [h]
      rfl
    · rfl
  | x t => rfl
  | cx c t => rfl
  | ccx c1 c2 t => rfl

theorem member_eq_none {r : ℕ} {item : Item} (h : names r item = false) : member r item = none := by
  cases item <;> simp_all [names, member]

/-- **A register after the items**: its members in the order of the items. -/
theorem getElem?_foldl_declare (items : List Item) (registers : Std.ExtTreeMap ℕ (List ℕ)) (r : ℕ) :
    (items.foldl Item.declare registers)[r]? = if items.any (names r) = true then
      some (registers[r]?.getD [] ++ items.filterMap (member r)) else registers[r]? := by
  induction items generalizing registers with
  | nil => rfl
  | cons item items ih =>
    have hnone : items.any (names r) ≠ true → items.filterMap (member r) = [] := fun h =>
      List.filterMap_eq_nil_iff.mpr fun a ha =>
        member_eq_none (by simpa using fun e => h (List.any_eq_true.mpr ⟨a, ha, e⟩))
    have hcons : (item :: items).filterMap (member r) =
        (member r item).toList ++ items.filterMap (member r) := by
      rw [List.filterMap_cons]
      cases member r item <;> rfl
    rw [List.foldl_cons, ih, getElem?_declare, List.any_cons, hcons]
    cases hn : names r item with
    | false =>
      rw [member_eq_none hn]
      simp
    | true =>
      by_cases ha : items.any (names r) = true
      · simp [ha, List.append_assoc]
      · simp [ha, hnone ha]

/-- **Two lists of items give the same registers** when they name the same ones, with the same
    members in the same order. -/
theorem foldl_declare_eq_iff {items items' : List Item} :
    items.foldl Item.declare ∅ = items'.foldl Item.declare ∅ ↔
      ∀ r, items.any (names r) = items'.any (names r) ∧
        items.filterMap (member r) = items'.filterMap (member r) := by
  have hnone : ∀ {r} {items : List Item}, items.any (names r) = false →
      items.filterMap (member r) = [] := by
    intro r items h
    refine List.filterMap_eq_nil_iff.mpr fun a ha => member_eq_none ?_
    by_contra hn
    rw [List.any_eq_true.mpr ⟨a, ha, by simpa using hn⟩] at h
    cases h
  constructor
  · intro h r
    have e : (items.foldl Item.declare ∅)[r]? = (items'.foldl Item.declare ∅)[r]? := by rw [h]
    rw [getElem?_foldl_declare, getElem?_foldl_declare] at e
    cases h1 : items.any (names r) <;> cases h2 : items'.any (names r)
    · exact ⟨rfl, by rw [hnone h1, hnone h2]⟩
    · simp [h1, h2] at e
    · simp [h1, h2] at e
    · simp only [h1, h2, if_true, Std.ExtTreeMap.getElem?_empty, Option.getD_none, List.nil_append,
        Option.some_inj] at e
      exact ⟨rfl, e⟩
  · intro h
    refine Std.ExtTreeMap.ext_getElem? fun r => ?_
    rw [getElem?_foldl_declare, getElem?_foldl_declare, (h r).1, (h r).2]

/-- An instruction of the classical gates. -/
def isClassical (inst : Instruction) : Bool :=
  inst.name = "X" || inst.name = "CX" || inst.name = "CCX"

/-- The gate of such an instruction: controls first, target last. -/
def gateOf (inst : Instruction) : Option Gate :=
  match inst.targets with
  | [.qubit t] => if inst.name = "X" then some ⟨OP_NOT, t, NO_CTRL, NO_CTRL⟩ else none
  | [.qubit c, .qubit t] => if inst.name = "CX" then some ⟨OP_CNOT, t, c, NO_CTRL⟩ else none
  | [.qubit c1, .qubit c2, .qubit t] =>
      if inst.name = "CCX" then some ⟨OP_TOFFOLI, t, c1, c2⟩ else none
  | _ => none

theorem isClassical_toInst (item : Item) : isClassical (toInst item) = item.gate.isSome := by
  cases item <;> rfl

theorem gateOf_toInst {item : Item} {g : Gate} (h : item.gate = some g) :
    gateOf (toInst item) = some g := by
  rw [← h]
  cases item with
  | x t => rfl
  | cx c t => rfl
  | ccx c1 c2 t => rfl
  | register r => cases h
  | append q r => cases h

/-- The gates Rust reads of the items are those of Python. -/
theorem mapM_gateOf (items : List Item) :
    ((items.map toInst).filter isClassical).mapM gateOf = some (items.filterMap Item.gate) := by
  induction items with
  | nil => rfl
  | cons item items ih =>
    rw [List.map_cons, List.filter_cons, isClassical_toInst, List.filterMap_cons]
    cases hg : item.gate with
    | none => exact ih
    | some g =>
      rw [Option.isSome_some, if_pos rfl, List.mapM_cons, gateOf_toInst hg, ih]
      rfl

theorem declare_toInst (registers : Std.ExtTreeMap ℕ (List ℕ)) (item : Item) :
    declare registers (toInst item) = item.declare registers := by
  cases item <;> rfl

theorem foldl_declare_toInst (items : List Item) (registers : Std.ExtTreeMap ℕ (List ℕ)) :
    (items.map toInst).foldl declare registers = items.foldl Item.declare registers := by
  rw [List.foldl_map]
  congr 1
  funext registers item
  exact declare_toInst registers item

theorem maxBitOf_toInst (items : List Item) : maxBitOf (items.map toInst) = -1 := by
  unfold maxBitOf
  rw [List.foldl_map]
  induction items with
  | nil => rfl
  | cons item items ih =>
    rw [List.foldl_cons]
    cases item <;> exact ih

/-- **Both sides track the same greatest qubit** of the same items. -/
theorem maxQubitOf_toInst {items : List Item} (hfits : ∀ item ∈ items, item.Fits) :
    maxQubitOf (items.map toInst) = (items.flatMap Item.targets).foldl Python.maxTarget (-1) := by
  have hiff : ∀ b : ℤ, maxQubitOf (items.map toInst) ≤ b ↔
      (items.flatMap Item.targets).foldl Python.maxTarget (-1) ≤ b := by
    intro b
    rw [maxQubitOf_le_iff, foldl_maxTarget_le_iff]
    refine and_congr_right fun _ => forall_congr' fun q => ?_
    have small : ∀ item ∈ items, .qubit q ∈ item.targets → asIsize q = q := fun item hi hq =>
      asIsize_of_lt ((hfits item hi q hq).trans_lt (by decide))
    constructor
    · intro h hq
      obtain ⟨item, hi, hq⟩ := List.mem_flatMap.mp hq
      rw [← small item hi hq]
      exact h ⟨_, List.mem_map_of_mem hi, hq⟩
    · rintro h ⟨_, hm, hq⟩
      obtain ⟨item, hi, rfl⟩ := List.mem_map.mp hm
      rw [small item hi hq]
      exact h (List.mem_flatMap.mpr ⟨item, hi, hq⟩)
  exact le_antisymm ((hiff _).mpr le_rfl) ((hiff _).mp le_rfl)

/-! ## 6. The texts read alike -/

/-- **The texts both sides read alike.** -/
structure ReadAlike (text : List Char) : Prop where
  lines : ∀ l ∈ text.splitOn '\n', LineAlike l
  /-- A hidden line of code declares a register that a visible one names. -/
  hidden : ∀ l ∈ text.splitOn '\n', ∀ code ∈ hiddenCodes l, ∃ r, Reads (split code) (.register r) ∧
    ∃ l' ∈ text.splitOn '\n', ∃ code' ∈ visibleCodes l', ∃ item, Reads (split code') item ∧
      names r item = true

/-- The circuit of Rust is the one of Python. -/
structure SameCircuit (c : Circuit) (py : KmxCircuit) : Prop where
  gates : (c.instructions.filter isClassical).mapM gateOf = some py.gates
  registers : c.registers = py.registers
  numQubits : c.numQubits = py.numQubits

theorem reads_unique {toks : List (List Char)} {item item' : Item} (h : Reads toks item)
    (h' : Reads toks item') : item = item' := by
  obtain ⟨⟨rest, rfl, hts⟩, -⟩ := h
  obtain ⟨⟨rest', e, hts'⟩, -⟩ := h'
  obtain ⟨hname, rfl⟩ := List.cons.inj e
  have htargets := Option.some.inj (hts.symm.trans hts')
  cases item <;> cases item' <;>
    simp_all [Item.name, Item.targets, registerName, appendName]

/-- An item that is no gate and appends nothing declares a register. -/
theorem eq_register {item : Item} (hg : item.gate = none) (hm : ∀ r, member r item = none) :
    ∃ r, item = .register r := by
  cases item with
  | register r => exact ⟨r, rfl⟩
  | append q r => simpa [member] using hm r
  | x t => cases hg
  | cx c t => cases hg
  | ccx c1 c2 t => cases hg

section Items

variable {ls : List (List Char)} {vs hs ps : List Item}

/-- **The hidden items leave no trace** exactly when they declare registers the visible ones name. -/
theorem same_iff_hidden (h : Parts ls vs hs ps) :
    (vs.filterMap Item.gate = ps.filterMap Item.gate ∧
        vs.foldl Item.declare ∅ = ps.foldl Item.declare ∅ ∧
        (vs.flatMap Item.targets).foldl Python.maxTarget (-1) =
          (ps.flatMap Item.targets).foldl Python.maxTarget (-1)) ↔
      ∀ item ∈ hs, ∃ r, item = .register r ∧ vs.any (names r) = true := by
  rw [foldl_declare_eq_iff]
  constructor
  · rintro ⟨hg, hr, -⟩ item hi
    obtain ⟨r, rfl⟩ := eq_register (h.ignored hg item hi) fun r => h.ignored (hr r).2 item hi
    refine ⟨r, rfl, ?_⟩
    rw [(hr r).1]
    exact List.any_eq_true.mpr ⟨_, h.mem_iff.mpr (Or.inr hi), by simp [names]⟩
  · intro hall
    refine ⟨(h.filterMap_eq fun item hi => ?_).symm, fun r => ⟨?_, (h.filterMap_eq
      fun item hi => ?_).symm⟩, ?_⟩
    · obtain ⟨r, rfl, -⟩ := hall item hi
      rfl
    · rw [Bool.eq_iff_iff, List.any_eq_true, List.any_eq_true]
      constructor
      · intro h'
        obtain ⟨item, hi, hn⟩ := h'
        exact ⟨item, h.mem_iff.mpr (Or.inl hi), hn⟩
      · intro h'
        obtain ⟨item, hi, hn⟩ := h'
        rcases h.mem_iff.mp hi with hi | hi
        · exact ⟨item, hi, hn⟩
        · obtain ⟨r', rfl, hv⟩ := hall item hi
          obtain rfl : r' = r := by simpa [names] using hn
          exact List.any_eq_true.mp hv
    · obtain ⟨r', rfl, -⟩ := hall item hi
      rfl
    · have hiff : ∀ b : ℤ, (vs.flatMap Item.targets).foldl Python.maxTarget (-1) ≤ b ↔
          (ps.flatMap Item.targets).foldl Python.maxTarget (-1) ≤ b := by
        intro b
        rw [foldl_maxTarget_le_iff, foldl_maxTarget_le_iff]
        refine and_congr_right fun _ => forall_congr' fun q => imp_congr ?_ Iff.rfl
        rw [List.mem_flatMap, List.mem_flatMap]
        constructor
        · intro h'
          obtain ⟨item, hi, hq⟩ := h'
          exact ⟨item, h.mem_iff.mpr (Or.inl hi), hq⟩
        · intro h'
          obtain ⟨item, hi, hq⟩ := h'
          rcases h.mem_iff.mp hi with hi | hi
          · exact ⟨item, hi, hq⟩
          · obtain ⟨r, rfl, -⟩ := hall item hi
            simp [Item.targets] at hq
      exact le_antisymm ((hiff _).mpr le_rfl) ((hiff _).mp le_rfl)

theorem Parts.fits (h : Parts ls vs hs ps) : ∀ item ∈ vs, item.Fits := fun item hi => by
  obtain ⟨l, -, code, -, hr⟩ := h.reads.1.exists_code hi
  exact hr.fits

/-- The circuit Rust builds from the visible items. -/
theorem build_toInst {c : Circuit} (h : Parts ls vs hs ps) (hb : Built (vs.map toInst) c) :
    SameCircuit c (circuitOf ps) ↔
      ∀ item ∈ hs, ∃ r, item = .register r ∧ vs.any (names r) = true := by
  rw [← same_iff_hidden h, circuitOf_eq]
  have hle : ∀ items : List Item,
      -1 ≤ (items.flatMap Item.targets).foldl Python.maxTarget (-1) := fun items =>
    (foldl_maxTarget_le_iff.mp le_rfl).1
  have h1 := hle vs
  have h2 := hle ps
  constructor
  · intro h'
    obtain ⟨hg, hr, hq⟩ := h'
    rw [hb.instructions, mapM_gateOf, Option.some_inj] at hg
    rw [hb.registers, foldl_declare_toInst] at hr
    rw [hb.numQubits, maxQubitOf_toInst h.fits] at hq
    dsimp only at hq
    exact ⟨hg, hr, by omega⟩
  · intro h'
    obtain ⟨hg, hr, hq⟩ := h'
    refine ⟨?_, ?_, ?_⟩
    · rw [hb.instructions, mapM_gateOf, hg]
    · rw [hb.registers, foldl_declare_toInst, hr]
    · rw [hb.numQubits, maxQubitOf_toInst h.fits, hq]

/-- A program of items always builds. -/
theorem counts_toInst (h : Parts ls vs hs ps) : maxQubitOf (vs.map toInst) + 1 < 2 ^ 63 ∧
    maxBitOf (vs.map toInst) + 1 < 2 ^ 63 := by
  have hq : maxQubitOf (vs.map toInst) ≤ WIRE_MAX := by
    rw [maxQubitOf_toInst h.fits, foldl_maxTarget_le_iff]
    refine ⟨by decide, fun q hq => ?_⟩
    obtain ⟨item, hi, hq⟩ := List.mem_flatMap.mp hq
    exact_mod_cast h.fits item hi q hq
  rw [maxBitOf_toInst]
  exact ⟨by unfold WIRE_MAX at hq; omega, by decide⟩

end Items

/-- **Rust reads the circuit Python reads exactly on the texts of `ReadAlike`.** -/
theorem parse_agree_iff (text : List Char) (py : KmxCircuit) (h : Python.parseKmx text = .ok py) :
    (∃ c, parse text = pure c ∧ SameCircuit c py) ↔ ReadAlike text := by
  obtain ⟨ps, hps, rfl⟩ := Python.parseKmx_eq_ok.mp h
  rw [codeLines_eq_flatMap] at hps
  obtain ⟨vs, hs, hparts⟩ := exists_parts hps
  simp only [parse_eq_pure_iff]
  constructor
  · intro h'
    obtain ⟨c, ⟨insts, hp, -, -, hb⟩, hsame⟩ := h'
    have hlines : ∀ l ∈ text.splitOn '\n', LineAlike l := fun l hl =>
      lineAlike_of_reads (hp.line_of_mem hl) fun code hcode =>
        (hparts.reads.1.exists_item hl hcode).imp fun _ hi => hi.2
    obtain rfl := hp.unique (program_of_parts hparts hlines)
    have hhidden := (build_toInst hparts hb).mp hsame
    refine ⟨hlines, fun l hl code hcode => ?_⟩
    obtain ⟨item, hi, hr⟩ := hparts.reads.2.exists_item hl hcode
    obtain ⟨r, rfl, hany⟩ := hhidden item hi
    obtain ⟨v, hv, hn⟩ := List.any_eq_true.mp hany
    obtain ⟨l', hl', code', hcode', hr'⟩ := hparts.reads.1.exists_code hv
    exact ⟨r, hr, l', hl', code', hcode', v, hr', hn⟩
  · intro h'
    obtain ⟨hlines, hhidden⟩ := h'
    obtain ⟨hq, hbit⟩ := counts_toInst hparts
    let c : Circuit := ⟨vs.map toInst, (vs.map toInst).foldl declare ∅,
      (maxQubitOf (vs.map toInst) + 1).toNat, (maxBitOf (vs.map toInst) + 1).toNat⟩
    have hb : Built (vs.map toInst) c := ⟨rfl, rfl, rfl, rfl⟩
    refine ⟨c, ⟨_, program_of_parts hparts hlines, hq, hbit, hb⟩,
      (build_toInst hparts hb).mpr fun item hi => ?_⟩
    obtain ⟨l, hl, code, hcode, hr⟩ := hparts.reads.2.exists_code hi
    obtain ⟨r, hr', l', hl', code', hcode', item', hr'', hn⟩ := hhidden l hl code hcode
    refine ⟨r, reads_unique hr hr', List.any_eq_true.mpr ?_⟩
    obtain ⟨v, hv, hvr⟩ := hparts.reads.1.exists_item hl' hcode'
    exact ⟨v, hv, reads_unique hr'' hvr ▸ hn⟩

/-- A circuit of one gate. -/
theorem parse_agree_iff_gate : ∃ py, Python.parseKmx ['X', ' ', 'q', '0'] = .ok py ∧
    ((∃ c, parse ['X', ' ', 'q', '0'] = pure c ∧ SameCircuit c py) ↔
      ReadAlike ['X', ' ', 'q', '0']) :=
  ⟨_, rfl, parse_agree_iff _ _ rfl⟩

/-- A carriage return in a comment: Python reads a gate, Rust none. -/
theorem comment_hides_gate_of_kmx : ∃ py,
    Python.parseKmx ['#', ' ', 'c', '\r', 'X', ' ', 'q', '0'] = .ok py ∧
      ¬∃ c, parse ['#', ' ', 'c', '\r', 'X', ' ', 'q', '0'] = pure c ∧ SameCircuit c py := by
  refine ⟨_, rfl, ?_⟩
  intro h
  obtain ⟨c, hp, hs⟩ := h
  obtain rfl : (⟨[], ∅, 0, 0⟩ : Circuit) = c := Outcome.pure_inj.mp hp
  cases hs.gates

end GroverTax.Parity
