/-
  File:      GroverTax/Kickmix/Render.lean
  Subject:   The .kmx text of a circuit, and which circuits `Circuit::parse` returns.

  * `Instruction.line`, `render` -- an instruction as a line, a list of them as a text;
  * `WellFormed` -- the instructions that a line can denote;
  * `readLines_render` -- a text of well-formed instructions is read as them, below any comments;
  * **`parse_image`** -- **the parser returns a circuit exactly when the text of its instructions
    parses to it**, and which circuits these are.
-/
import GroverTax.Kickmix.Grammar

namespace GroverTax.Kickmix

open GroverTax.Lib

/-! ## 1. Texts -/

def numeral (n : ℕ) : List Char := Nat.toDigits 10 n

def Target.token : Target → List Char
  | .qubit q => 'q' :: numeral q
  | .bit b => 'b' :: numeral b
  | .register r => 'r' :: numeral r

/-- The words of an instruction: its name, its targets, its condition. -/
def Instruction.words (inst : Instruction) : List (List Char) :=
  inst.name.toList :: (inst.targets.map Target.token ++
    inst.condition.elim [] fun b => [ifToken, (Target.bit b).token])

def Instruction.line (inst : Instruction) : List Char := [' '].intercalate inst.words

/-- One line for each instruction. -/
def render (insts : List Instruction) : List Char := unlines '\n' (insts.map Instruction.line)

/-- The instructions a line can denote. -/
structure WellFormed (inst : Instruction) : Prop where
  name : isValidName inst.name.toList = true
  targets : ∀ t ∈ inst.targets, t.index < usizeSize
  condition : ∀ b, inst.condition = some b → b < usizeSize
  metadata : MetadataOk inst.name inst.targets

/-! ## 2. Words -/

theorem digits_numeral (n : ℕ) : Digits (numeral n) := by
  refine ⟨Nat.toDigits_ne_nil, fun c hc => ?_⟩
  have hd := Nat.isDigit_of_mem_toDigits (by decide) (by decide) hc
  rw [Char.isDigit, Bool.and_eq_true, decide_eq_true_eq, decide_eq_true_eq] at hd
  rw [isAsciiDigit_iff]
  exact hd

theorem digitsValue_numeral (n : ℕ) : digitsValue (numeral n) = n :=
  Nat.ofDigitChars_ten_toDigits

/-- A numeral that the type has is read back. -/
theorem parseUnsigned_numeral {size n : ℕ} (h : n < size) :
    parseUnsigned size (numeral n) = some n :=
  parseUnsigned_eq_some.mpr ⟨numeral n, Or.inl rfl, digits_numeral n, by rwa [digitsValue_numeral],
    (digitsValue_numeral n).symm⟩

theorem targetOf_token {t : Target} (h : t.index < usizeSize) : targetOf t.token = some t := by
  rw [targetOf_eq_some]
  cases t with
  | qubit q => exact ⟨_, q, parseUnsigned_numeral h, Or.inl ⟨rfl, rfl⟩⟩
  | bit b => exact ⟨_, b, parseUnsigned_numeral h, Or.inr (Or.inl ⟨rfl, rfl⟩)⟩
  | register r => exact ⟨_, r, parseUnsigned_numeral h, Or.inr (Or.inr ⟨rfl, rfl⟩)⟩

section Lines

variable {inst : Instruction} {insts : List Instruction} {toks : List (List Char)}

theorem DenotesBy.wellFormed (h : Denotes toks inst) : WellFormed inst := by
  obtain ⟨hv, hc, hts, hm⟩ := h
  refine ⟨by rwa [String.toList_ofList], fun t ht => ?_, fun b hb => ?_, hm⟩
  · obtain ⟨tok, -, e⟩ := exists_of_mem_mapM hts t ht
    exact index_lt_of_targetOf e
  · cases hc with
    | never => cases hb
    | ifBit _ ht =>
      obtain rfl := Option.some.inj hb
      exact index_lt_of_targetOf ht

theorem mapM_targetOf_token : ∀ {ts : List Target}, (∀ t ∈ ts, t.index < usizeSize) →
    (ts.map Target.token).mapM targetOf = some ts
  | [], _ => rfl
  | t :: ts, h => by
      rw [List.forall_mem_cons] at h
      rw [List.map_cons, List.mapM_cons, targetOf_token h.1, mapM_targetOf_token h.2]
      rfl

theorem token_ne_ifToken (t : Target) : t.token ≠ ifToken := by
  cases t <;> exact fun h => absurd (List.cons.inj h).1 (by decide)

/-- **The words of a well-formed instruction denote it.** -/
theorem WellFormed.denotes (h : WellFormed inst) : Denotes inst.words inst := by
  have hname : inst.name = String.ofList inst.name.toList := String.ofList_toList.symm
  have hif : ifToken ∉ inst.targets.map Target.token := by
    intro hm
    obtain ⟨t, -, e⟩ := List.mem_map.mp hm
    exact token_ne_ifToken t e
  obtain ⟨name, ts, cond⟩ := inst
  have hcond : Conditioned targetOf (ts.map Target.token ++
      cond.elim [] fun b => [ifToken, (Target.bit b).token]) (ts.map Target.token) cond := by
    cases cond with
    | none =>
      rw [Option.elim_none, List.append_nil]
      exact .never hif
    | some b => exact .ifBit hif (targetOf_token (h.condition b rfl))
  have hd := DenotesBy.intro h.name hcond (mapM_targetOf_token h.targets)
    (by rw [← hname]; exact h.metadata)
  rwa [← hname] at hd

/-- A word is not empty, and has no space and no `#`. -/
def Word (w : List Char) : Prop := w ≠ [] ∧ Plain w ∧ '#' ∉ w

theorem word_numeral {k : Char} (hk : k = 'q' ∨ k = 'b' ∨ k = 'r') (n : ℕ) :
    Word (k :: numeral n) := by
  have hd := digits_numeral n
  refine ⟨List.cons_ne_nil _ _, plain_cons ?_ hd.plain, fun hm => ?_⟩
  · rcases hk with rfl | rfl | rfl <;> decide
  · rcases List.mem_cons.mp hm with rfl | hm
    · rcases hk with h | h | h <;> exact absurd h (by decide)
    · exact absurd (hd.2 '#' hm) (by decide)

theorem word_token (t : Target) : Word t.token := by
  cases t with
  | qubit q => exact word_numeral (Or.inl rfl) q
  | bit b => exact word_numeral (Or.inr (Or.inl rfl)) b
  | register r => exact word_numeral (Or.inr (Or.inr rfl)) r

theorem word_name {name : List Char} (h : isValidName name = true) : Word name := by
  refine ⟨?_, plain_name h, fun hm => ?_⟩
  · rintro rfl
    cases h
  · cases name with
    | nil => cases hm
    | cons c cs =>
      rw [isValidName, Bool.and_eq_true, List.all_eq_true] at h
      rcases List.mem_cons.mp hm with rfl | hm
      · exact absurd h.1 (by decide)
      · exact absurd (h.2 '#' hm) (by decide)

theorem WellFormed.word (h : WellFormed inst) {w : List Char} (hw : w ∈ inst.words) : Word w := by
  rcases List.mem_cons.mp hw with rfl | hw
  · exact word_name h.name
  rcases List.mem_append.mp hw with hw | hw
  · obtain ⟨t, -, rfl⟩ := List.mem_map.mp hw
    exact word_token t
  · cases hc : inst.condition with
    | none => rw [hc] at hw; cases hw
    | some b =>
      rw [hc, Option.elim_some, List.mem_cons, List.mem_singleton] at hw
      rcases hw with rfl | rfl
      · have hplain : Plain ifToken :=
          plain_cons (by decide) (plain_cons (by decide) (List.forall_mem_nil _))
        exact ⟨by decide, hplain, by decide⟩
      · exact word_token (.bit b)

/-- A character of a line is a space or of a word. -/
theorem WellFormed.mem_line (h : WellFormed inst) {c : Char} (hc : c ∈ inst.line) :
    0x20 ≤ c.toNat ∧ c.toNat < 0x80 ∧ c ≠ '#' := by
  rcases mem_intercalate hc with rfl | ⟨w, hw, hcw⟩
  · decide
  · obtain ⟨-, hplain, hhash⟩ := h.word hw
    have := hplain c hcw
    exact ⟨this.1.le, this.2, fun e => hhash (e ▸ hcw)⟩

/-- **A line has the words of its instruction.** -/
theorem WellFormed.lineTokens_line (h : WellFormed inst) : lineTokens inst.line = inst.words := by
  have hall : inst.line.takeWhile (· ≠ '#') = inst.line :=
    List.takeWhile_eq_self_iff.mpr fun c hc => decide_eq_true (h.mem_line hc).2.2
  rw [lineTokens, hall]
  exact tokens_intercalate (by decide) fun w hw => ⟨(h.word hw).1, fun c hc =>
    isWhitespace_eq_false ((h.word hw).2.1 c hc)⟩

theorem WellFormed.newline_notMem (h : WellFormed inst) : '\n' ∉ inst.line := fun hc =>
  absurd (h.mem_line hc).1 (by decide)

/-- A line that is a comment. -/
def Comment (l : List Char) : Prop := l.head? = some '#' ∧ '\n' ∉ l

theorem Comment.lineTokens_eq {l : List Char} (h : Comment l) : lineTokens l = [] := by
  cases l with
  | nil => cases h.1
  | cons c l =>
    obtain rfl := Option.some.inj h.1
    rfl

theorem splitOn_unlines {ls : List (List Char)} (h : ∀ l ∈ ls, '\n' ∉ l) :
    (unlines '\n' ls).splitOn '\n' = ls ++ [[]] := by
  refine splitOnP_unlines (by decide) fun l hl d hd => ?_
  rw [beq_eq_false_iff_ne]
  rintro rfl
  exact h l hl hd

/-- **A text of well-formed instructions below comments is read as them.** -/
theorem program_render {comments : List (List Char)} (hc : ∀ l ∈ comments, Comment l)
    (h : ∀ inst ∈ insts, WellFormed inst) :
    Program ((unlines '\n' comments ++ render insts).splitOn '\n') insts := by
  have hlines : ∀ insts : List Instruction, (∀ inst ∈ insts, WellFormed inst) →
      Program (insts.map Instruction.line ++ [[]]) insts := by
    intro insts h
    induction insts with
    | nil => exact .blank rfl .nil
    | cons inst insts ih =>
      rw [List.forall_mem_cons] at h
      refine .line ?_ (ih h.2)
      rw [h.1.lineTokens_line]
      exact h.1.denotes
  rw [render, ← unlines_append, splitOn_unlines, List.append_assoc]
  · induction comments with
    | nil => exact hlines insts h
    | cons l comments ih =>
      rw [List.forall_mem_cons] at hc
      exact .blank hc.1.lineTokens_eq (ih hc.2)
  · intro l hl
    rcases List.mem_append.mp hl with hl | hl
    · exact (hc l hl).2
    · obtain ⟨inst, hi, rfl⟩ := List.mem_map.mp hl
      exact (h inst hi).newline_notMem

/-- A program has well-formed instructions. -/
theorem ProgramBy.wellFormed {raws : List (List Char)} (h : Program raws insts) :
    ∀ inst ∈ insts, WellFormed inst := by
  induction h with
  | nil => exact List.forall_mem_nil _
  | blank _ _ ih => exact ih
  | line hd _ ih => exact List.forall_mem_cons.mpr ⟨hd.wellFormed, ih⟩

end Lines

/-! ## 3. The image of the parser -/

/-- The circuits that a text can have: well-formed instructions, in counts that fit. -/
structure Parsed (c : Circuit) : Prop where
  wellFormed : ∀ inst ∈ c.instructions, WellFormed inst
  maxQubit : maxQubitOf c.instructions + 1 < 2 ^ 63
  maxBit : maxBitOf c.instructions + 1 < 2 ^ 63
  built : Built c.instructions c

/-- The text of a circuit, below comments. -/
theorem Parsed.parse {c : Circuit} (h : Parsed c) {comments : List (List Char)}
    (hc : ∀ l ∈ comments, Comment l) :
    parse (unlines '\n' comments ++ render c.instructions) = pure c :=
  parse_eq_pure_iff.mpr ⟨_, program_render hc h.wellFormed, h.maxQubit, h.maxBit, h.built⟩

theorem parsed_of_parse {text : List Char} {c : Circuit} (h : parse text = pure c) : Parsed c := by
  obtain ⟨insts, hp, hq, hb, hbuilt⟩ := parse_eq_pure_iff.mp h
  obtain rfl := hbuilt.instructions
  exact ⟨hp.wellFormed, hq, hb, hbuilt⟩

/-- **The image of the parser**: what it returns for any text, it returns for the text of the
    instructions, and these are the circuits whose instructions are well formed, whose counts fit
    and whose other fields are what the instructions say. -/
theorem parse_image (c : Circuit) : ((∃ text, parse text = pure c) ↔ Parsed c) ∧
    ((∃ text, parse text = pure c) ↔ parse (render c.instructions) = pure c) := by
  have hback : Parsed c → parse (render c.instructions) = pure c := fun h =>
    h.parse (List.forall_mem_nil Comment)
  refine ⟨⟨fun ⟨text, h⟩ => parsed_of_parse h, fun h => ⟨_, hback h⟩⟩,
    ⟨fun ⟨text, h⟩ => hback (parsed_of_parse h), fun h => ⟨_, h⟩⟩⟩

/-- The text loses its comments, its blanks and the zeros and signs of its numerals. -/
example : render [⟨"CX", [.qubit 7, .qubit 10], some 3⟩] = "CX q7 q10 if b3\n".toList := by decide

end GroverTax.Kickmix
