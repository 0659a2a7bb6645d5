/-
  File:      GroverTax/Kickmix/Documented.lean
  Subject:   The grammar of src/third_party/sp1/docs/kickmix_file_format.md, and how far the parser
             keeps to it.

  * `parse_eq_panics` -- when the parser panics;
  * `docTarget`, `docTokens`, `Documented` -- the grammar, with the instructions of a text;
  * `Conforms` -- what the document and the result type promise of one text;
  * `Strict` -- **the texts on which the parser conforms**, `conforms_iff`.
-/
import GroverTax.Kickmix.Grammar

namespace GroverTax.Kickmix

open GroverTax.Lib

/-! ## 1. Panics -/

/-- Byte 1 of the token is not the end of a character. -/
def SplitsCharacter (token : List Char) : Prop := ∀ c, token.head? = some c → c.utf8Size ≠ 1

theorem splitCondition_eq_panics {rest : List (List Char)} {n : ℕ} :
    splitCondition rest n = .panics ↔
      ∃ toks token, rest = toks ++ [ifToken, token] ∧ ifToken ∉ toks ∧ SplitsCharacter token := by
  constructor
  · intro h
    unfold splitCondition at h
    split at h
    · exact absurd h (Outcome.pure_ne_panics _)
    · rename_i w token hd
      have hw : w = ifToken := by
        have := List.head?_dropWhile_not (· ≠ ifToken) rest
        rw [hd] at this
        simpa using this
      have hsplit := List.takeWhile_append_dropWhile (p := (· ≠ ifToken)) (l := rest)
      rw [hd, hw] at hsplit
      refine ⟨_, token, hsplit.symm, fun hm => by simpa using List.mem_takeWhile_imp hm, ?_⟩
      rcases Outcome.bind_eq_panics.mp h with ht | ⟨t, -, ht⟩
      · exact parseTarget_eq_panics.mp ht
      · cases t with
        | bit b => exact absurd ht (Outcome.pure_ne_panics _)
        | qubit q => exact absurd ht (Outcome.throw_ne_panics _)
        | register r => exact absurd ht (Outcome.throw_ne_panics _)
    · exact absurd h (Outcome.throw_ne_panics _)
  · intro h'
    obtain ⟨toks, token, rfl, hn, hs⟩ := h'
    unfold splitCondition
    rw [(takeWhile_dropWhile_if hn [token]).2]
    exact Outcome.bind_eq_panics.mpr (Or.inl (parseTarget_eq_panics.mpr hs))

theorem mapM_parseTarget_eq_panics {n : ℕ} : ∀ {tokens : List (List Char)},
    tokens.mapM (fun tok => parseTarget tok n) = .panics ↔
      ∃ pre token post, tokens = pre ++ token :: post ∧ (∀ tok ∈ pre, targetOf tok ≠ none) ∧
        SplitsCharacter token
  | [] => by
      rw [List.mapM_nil]
      refine ⟨fun h => absurd h (Outcome.pure_ne_panics _), ?_⟩
      intro h'
      obtain ⟨pre, token, post, h, -⟩ := h'
      simp at h
  | tok :: tokens => by
      rw [List.mapM_cons, Outcome.bind_eq_panics]
      constructor
      · rintro (h | ⟨t, ht, h⟩)
        · exact ⟨[], tok, tokens, rfl, by simp, parseTarget_eq_panics.mp h⟩
        · rcases Outcome.bind_eq_panics.mp h with h | ⟨ts, -, h⟩
          · obtain ⟨pre, token, post, rfl, hpre, hs⟩ := mapM_parseTarget_eq_panics.mp h
            refine ⟨tok :: pre, token, post, rfl, List.forall_mem_cons.mpr ⟨?_, hpre⟩, hs⟩
            rw [parseTarget_eq_pure.mp ht]
            exact Option.some_ne_none t
          · exact absurd h (Outcome.pure_ne_panics _)
      · intro h'
        obtain ⟨pre, token, post, h, hpre, hs⟩ := h'
        cases pre with
        | nil =>
          obtain ⟨rfl, rfl⟩ := List.cons.inj h
          exact Or.inl (parseTarget_eq_panics.mpr hs)
        | cons p pre =>
          obtain ⟨rfl, rfl⟩ := List.cons.inj h
          rw [List.forall_mem_cons] at hpre
          obtain ⟨t, ht⟩ := Option.ne_none_iff_exists'.mp hpre.1
          refine Or.inr ⟨t, parseTarget_eq_pure.mpr ht, Outcome.bind_eq_panics.mpr (Or.inl ?_)⟩
          exact mapM_parseTarget_eq_panics.mpr ⟨pre, token, post, rfl, hpre.2, hs⟩

/-- **The lines that panic**: the token of a condition, or the first token that is no target,
    begins with a character of more than one byte. -/
inductive Panics : List (List Char) → Prop
  | condition {name toks token} : isValidName name = true → ifToken ∉ toks →
      SplitsCharacter token → Panics (name :: (toks ++ [ifToken, token]))
  | target {name rest pre token post cond} : isValidName name = true →
      Conditioned targetOf rest (pre ++ token :: post) cond →
      (∀ tok ∈ pre, targetOf tok ≠ none) → SplitsCharacter token → Panics (name :: rest)

theorem checkMetadata_ne_panics {name : String} {targets : List Target} {n : ℕ} :
    checkMetadata name targets n ≠ .panics := by
  unfold checkMetadata
  split_ifs
  · split
    · exact Outcome.pure_ne_panics _
    · exact Outcome.throw_ne_panics _
  · split
    · exact Outcome.pure_ne_panics _
    · exact Outcome.pure_ne_panics _
    · exact Outcome.throw_ne_panics _
  · exact Outcome.pure_ne_panics _

theorem readTokens_eq_panics {tokens : List (List Char)} {n : ℕ} :
    readTokens n tokens = .panics ↔ Panics tokens := by
  cases tokens with
  | nil => exact ⟨fun h => absurd h (Outcome.pure_ne_panics _), fun h => by cases h⟩
  | cons name rest =>
    unfold readTokens
    by_cases hv : isValidName name = true
    · simp only [hv, Bool.not_true, Bool.false_eq_true, if_false]
      constructor
      · intro h
        rcases Outcome.bind_eq_panics.mp h with h | ⟨⟨toks, cond⟩, hc, h⟩
        · obtain ⟨toks, token, rfl, hn, hs⟩ := splitCondition_eq_panics.mp h
          exact .condition hv hn hs
        rcases Outcome.bind_eq_panics.mp h with h | ⟨ts, -, h⟩
        · obtain ⟨pre, token, post, rfl, hpre, hs⟩ := mapM_parseTarget_eq_panics.mp h
          exact .target hv (splitCondition_eq_pure.mp hc) hpre hs
        rcases Outcome.bind_eq_panics.mp h with h | ⟨-, -, h⟩
        · exact absurd h checkMetadata_ne_panics
        · exact absurd h (Outcome.pure_ne_panics _)
      · intro h
        cases h with
        | condition _ hn hs =>
          exact Outcome.bind_eq_panics.mpr
            (Or.inl (splitCondition_eq_panics.mpr ⟨_, _, rfl, hn, hs⟩))
        | target _ hc hpre hs =>
          refine Outcome.bind_eq_panics.mpr (Or.inr ⟨_, splitCondition_eq_pure.mpr hc, ?_⟩)
          exact Outcome.bind_eq_panics.mpr
            (Or.inl (mapM_parseTarget_eq_panics.mpr ⟨_, _, _, rfl, hpre, hs⟩))
    · have hf : isValidName name = false := by simpa using hv
      simp only [hf, Bool.not_false, if_true]
      refine ⟨fun h => absurd h (Outcome.throw_ne_panics _), fun h => ?_⟩
      cases h with
      | condition hv' => exact absurd hv' hv
      | target hv' => exact absurd hv' hv

/-- A line that reads: blank, or an instruction. -/
def Readable (tokens : List (List Char)) : Prop := tokens = [] ∨ ∃ inst, Denotes tokens inst

theorem readable_iff {tokens : List (List Char)} {n : ℕ} :
    Readable tokens ↔ ∃ inst, readTokens n tokens = pure inst := by
  simp only [readTokens_eq_pure]
  constructor
  · rintro (rfl | ⟨i, hi⟩)
    · exact ⟨none, Or.inl ⟨rfl, rfl⟩⟩
    · exact ⟨some i, Or.inr ⟨i, rfl, hi⟩⟩
  · intro h
    obtain ⟨_, ⟨rfl, -⟩ | ⟨i, -, hi⟩⟩ := h
    · exact Or.inl rfl
    · exact Or.inr ⟨i, hi⟩

/-- **Reading panics at the first line that does not read, if that line panics.** -/
theorem readLines_eq_panics {raws : List (List Char)} {n : ℕ} : readLines n raws = .panics ↔
    ∃ pre raw post, raws = pre ++ raw :: post ∧ (∀ l ∈ pre, Readable (lineTokens l)) ∧
      Panics (lineTokens raw) := by
  induction raws generalizing n with
  | nil =>
    refine ⟨fun h => absurd h (Outcome.pure_ne_panics _), ?_⟩
    intro h'
    obtain ⟨pre, raw, post, h, -⟩ := h'
    simp at h
  | cons raw rest ih =>
    rw [readLines, Outcome.bind_eq_panics, readTokens_eq_panics]
    constructor
    · rintro (h | ⟨inst, hi, h⟩)
      · exact ⟨[], raw, rest, rfl, by simp, h⟩
      · rcases Outcome.bind_eq_panics.mp h with h | ⟨insts, -, h⟩
        · obtain ⟨pre, raw', post, rfl, hpre, hp⟩ := ih.mp h
          exact ⟨raw :: pre, raw', post, rfl,
            List.forall_mem_cons.mpr ⟨readable_iff.mpr ⟨inst, hi⟩, hpre⟩, hp⟩
        · exact absurd h (Outcome.pure_ne_panics _)
    · intro h'
      obtain ⟨pre, raw', post, h, hpre, hp⟩ := h'
      cases pre with
      | nil =>
        obtain ⟨rfl, rfl⟩ := List.cons.inj h
        exact Or.inl hp
      | cons l pre =>
        obtain ⟨rfl, rfl⟩ := List.cons.inj h
        rw [List.forall_mem_cons] at hpre
        obtain ⟨inst, hi⟩ := readable_iff.mp hpre.1
        exact Or.inr ⟨inst, hi, Outcome.bind_eq_panics.mpr
          (Or.inl (ih.mpr ⟨pre, raw', post, rfl, hpre.2, hp⟩))⟩

theorem exists_program_iff {raws : List (List Char)} :
    (∃ insts, Program raws insts) ↔ ∀ l ∈ raws, Readable (lineTokens l) := by
  constructor
  · rintro ⟨insts, h⟩ l hl
    exact h.line_of_mem hl
  · intro h
    induction raws with
    | nil => exact ⟨[], .nil⟩
    | cons raw rest ih =>
      rw [List.forall_mem_cons] at h
      obtain ⟨insts, hp⟩ := ih h.2
      rcases h.1 with hb | ⟨inst, hd⟩
      · exact ⟨insts, .blank hb hp⟩
      · exact ⟨inst :: insts, .line hd hp⟩

theorem countOf_eq_panics {m : ℤ} : countOf m = .panics ↔ ¬m + 1 < 2 ^ 63 := by
  unfold countOf
  split_ifs with h
  · exact ⟨fun e => absurd e (Outcome.pure_ne_panics _), fun hn => absurd h hn⟩
  · exact ⟨fun _ => h, fun _ => rfl⟩

/-- **When the parser panics**: on a line, or on a count that overflows. -/
theorem parse_eq_panics {text : List Char} : parse text = .panics ↔
    (∃ pre raw post, text.splitOn '\n' = pre ++ raw :: post ∧
      (∀ l ∈ pre, Readable (lineTokens l)) ∧ Panics (lineTokens raw)) ∨
    ∃ insts, Program (text.splitOn '\n') insts ∧
      ¬(maxQubitOf insts + 1 < 2 ^ 63 ∧ maxBitOf insts + 1 < 2 ^ 63) := by
  rw [parse_eq_build, Outcome.bind_eq_panics, readLines_eq_panics]
  refine or_congr Iff.rfl (exists_congr fun insts => ?_)
  rw [readLines_eq_pure]
  refine and_congr_right fun _ => ?_
  unfold build
  dsimp only
  rw [foldl_add_maxQubit, foldl_add_maxBit, Outcome.bind_eq_panics, countOf_eq_panics]
  constructor
  · rintro (h | ⟨nq, -, h⟩)
    · exact fun hb => h hb.1
    · rcases Outcome.bind_eq_panics.mp h with h | ⟨nb, -, h⟩
      · exact fun hb => countOf_eq_panics.mp h hb.2
      · exact absurd h (Outcome.pure_ne_panics _)
  · intro h
    by_cases hq : maxQubitOf insts + 1 < 2 ^ 63
    · refine Or.inr ⟨_, countOf_eq_pure.mpr ⟨hq, rfl⟩, Outcome.bind_eq_panics.mpr (Or.inl ?_)⟩
      exact countOf_eq_panics.mpr fun hb => h ⟨hq, hb⟩
    · exact Or.inl hq

/-! ## 2. The documented grammar -/

/-- A spacing character of the format. -/
def isSpacing (c : Char) : Bool := c == ' ' || c == '\t'

/-- The tokens of a line, its comment removed. -/
def docTokens (raw : List Char) : List (List Char) := tokens isSpacing (raw.takeWhile (· ≠ '#'))

/-- `<QUBIT_ID>`, `<BIT_ID>` and `<REGISTER_ID>`. -/
def docTarget : List Char → Option Target
  | [] => none
  | kind :: ds =>
      if ds ≠ [] ∧ ds.all isAsciiDigit then
        if kind = 'q' then some (.qubit (digitsValue ds))
        else if kind = 'b' then some (.bit (digitsValue ds))
        else if kind = 'r' then some (.register (digitsValue ds))
        else none
      else none

/-- The text is of the grammar, and these are its instructions. -/
abbrev Documented (text : List Char) (insts : List Instruction) : Prop :=
  ProgramBy docTokens docTarget (text.splitOn '\n') insts

/-- The ids of a text are below `2 ^ 63`. -/
def IdsBelow (text : List Char) : Prop :=
  ∀ l ∈ text.splitOn '\n', ∀ tok ∈ docTokens l, ∀ t, docTarget tok = some t → t.index < 2 ^ 63

/-- **What is promised of the parser on a text.** -/
structure Conforms (text : List Char) : Prop where
  noPanic : parse text ≠ .panics
  accepts : IdsBelow text → ((∃ c, parse text = pure c) ↔ ∃ insts, Documented text insts)
  denotes : ∀ c, parse text = pure c → Documented text c.instructions

theorem docTarget_eq_some {token : List Char} {t : Target} : docTarget token = some t ↔
    ∃ ds, Digits ds ∧ ((token = 'q' :: ds ∧ t = .qubit (digitsValue ds)) ∨
      (token = 'b' :: ds ∧ t = .bit (digitsValue ds)) ∨
      (token = 'r' :: ds ∧ t = .register (digitsValue ds))) := by
  constructor
  · intro h
    cases token with
    | nil => cases h
    | cons kind ds =>
      rw [docTarget, Option.ite_none_right_eq_some, List.all_eq_true] at h
      obtain ⟨hd, h⟩ := h
      refine ⟨ds, hd, ?_⟩
      split_ifs at h with hq hb hr
      · exact Or.inl ⟨by rw [hq], (Option.some.inj h).symm⟩
      · exact Or.inr (Or.inl ⟨by rw [hb], (Option.some.inj h).symm⟩)
      · exact Or.inr (Or.inr ⟨by rw [hr], (Option.some.inj h).symm⟩)
  · intro h'
    obtain ⟨ds, hd, ⟨rfl, rfl⟩ | ⟨rfl, rfl⟩ | ⟨rfl, rfl⟩⟩ := h'
    all_goals
      rw [docTarget, if_pos ⟨hd.1, List.all_eq_true.mpr hd.2⟩]
      rfl

/-- A documented target is a target of the parser, if its id fits. -/
theorem targetOf_of_docTarget {token : List Char} {t : Target} (h : docTarget token = some t)
    (hid : t.index < usizeSize) : targetOf token = some t := by
  obtain ⟨ds, hd, hk⟩ := docTarget_eq_some.mp h
  have hlt : digitsValue ds < usizeSize := by
    rcases hk with ⟨-, rfl⟩ | ⟨-, rfl⟩ | ⟨-, rfl⟩
    all_goals exact hid
  refine targetOf_eq_some.mpr ⟨ds, _, parseUsize_eq_some.mpr ⟨ds, Or.inl rfl, hd, hlt, rfl⟩, hk⟩

/-- A target of the parser without a sign is documented. -/
theorem docTarget_of_targetOf {token : List Char} {t : Target} (h : targetOf token = some t)
    (hplus : '+' ∉ token) : docTarget token = some t := by
  obtain ⟨rest, id, hid, hk⟩ := targetOf_eq_some.mp h
  obtain ⟨ds, hds, hd, -, rfl⟩ := parseUsize_eq_some.mp hid
  have hrest : rest = ds := by
    rcases hds with rfl | rfl
    · rfl
    · rcases hk with ⟨rfl, -⟩ | ⟨rfl, -⟩ | ⟨rfl, -⟩
      all_goals exact absurd (List.mem_cons_of_mem _ List.mem_cons_self) hplus
  exact docTarget_eq_some.mpr ⟨ds, hd, hrest ▸ hk⟩

theorem plain_docTarget {token : List Char} {t : Target} (h : docTarget token = some t) :
    Plain token ∧ '+' ∉ token := by
  obtain ⟨ds, hd, ⟨rfl, -⟩ | ⟨rfl, -⟩ | ⟨rfl, -⟩⟩ := docTarget_eq_some.mp h
  all_goals
    refine ⟨plain_cons (by decide) hd.plain, fun hm => ?_⟩
    rcases List.mem_cons.mp hm with e | hm
    · cases e
    · exact absurd (hd.2 '+' hm) (by decide)

theorem plus_notMem_name {name : List Char} (h : isValidName name = true) : '+' ∉ name := by
  cases name with
  | nil => cases h
  | cons c cs =>
    rw [isValidName, Bool.and_eq_true, List.all_eq_true] at h
    intro hm
    rcases List.mem_cons.mp hm with rfl | hm
    · exact absurd h.1 (by decide)
    · exact absurd (h.2 '+' hm) (by decide)

/-- The tokens of a documented line. -/
theorem doc_token {tokens : List (List Char)} {inst : Instruction}
    (h : DenotesBy docTarget tokens inst) {tok : List Char} (ht : tok ∈ tokens) :
    Plain tok ∧ '+' ∉ tok := by
  rcases h.token_cases ht with hv | rfl | ⟨t, e⟩
  · exact ⟨plain_name hv, plus_notMem_name hv⟩
  · exact ⟨plain_cons (by decide) (plain_cons (by decide) (by simp [Plain])), by decide⟩
  · exact plain_docTarget e

theorem isWhitespace_of_isSpacing {c : Char} (h : isSpacing c = true) : isWhitespace c = true := by
  simp only [isSpacing, Bool.or_eq_true, beq_iff_eq] at h
  rcases h with rfl | rfl
  · decide
  · decide

/-- The whitespace of a line's code is spacing. -/
def Spaced (l : List Char) : Prop :=
  ∀ c ∈ l.takeWhile (· ≠ '#'), isWhitespace c = true → isSpacing c = true

theorem docTokens_eq {l : List Char} (h : Spaced l) : docTokens l = lineTokens l := by
  refine tokens_congr fun c hc => ?_
  rw [Bool.eq_iff_iff]
  exact ⟨isWhitespace_of_isSpacing, h c hc⟩

theorem spaced_of_plain {l : List Char} (h : ∀ tok ∈ docTokens l, Plain tok) : Spaced l := by
  intro c hc hw
  by_contra hs
  obtain ⟨tok, ht, hct⟩ := exists_mem_tokens hc (by simpa using hs)
  rw [isWhitespace_eq_false (h tok ht c hct)] at hw
  cases hw

/-! ## 3. When the parser conforms -/

/-- **The texts on which the parser conforms.** -/
structure Strict (text : List Char) : Prop where
  /-- The first line that does not read does not panic. -/
  unread : ∀ pre raw post, text.splitOn '\n' = pre ++ raw :: post →
    (∀ l ∈ pre, Readable (lineTokens l)) → ¬Panics (lineTokens raw)
  /-- If all lines read: no id whose count overflows, no whitespace but spacing, no sign. -/
  extreme : (∀ l ∈ text.splitOn '\n', Readable (lineTokens l)) → ∀ tok ∈ tokensOf text,
    targetOf tok ≠ some (.qubit (2 ^ 63 - 1)) ∧ targetOf tok ≠ some (.bit (2 ^ 63 - 1))
  spaced : (∀ l ∈ text.splitOn '\n', Readable (lineTokens l)) → ∀ l ∈ text.splitOn '\n', Spaced l
  unsigned : (∀ l ∈ text.splitOn '\n', Readable (lineTokens l)) → ∀ tok ∈ tokensOf text, '+' ∉ tok

/-- The counts fit an id unless it is `2 ^ 63 - 1`. -/
theorem asIsize_le_iff {n : ℕ} (h : n < usizeSize) : asIsize n ≤ 2 ^ 63 - 2 ↔ n ≠ 2 ^ 63 - 1 := by
  unfold usizeSize at h
  unfold asIsize
  split_ifs <;> omega

/-- **The counts of a program fit** exactly when no id is `2 ^ 63 - 1`. -/
theorem counts_fit_iff {text : List Char} {insts : List Instruction}
    (h : Program (text.splitOn '\n') insts) :
    (maxQubitOf insts + 1 < 2 ^ 63 ∧ maxBitOf insts + 1 < 2 ^ 63) ↔ ∀ tok ∈ tokensOf text,
      targetOf tok ≠ some (.qubit (2 ^ 63 - 1)) ∧ targetOf tok ≠ some (.bit (2 ^ 63 - 1)) := by
  have hq : maxQubitOf insts + 1 < 2 ^ 63 ↔ maxQubitOf insts ≤ 2 ^ 63 - 2 := by omega
  have hb : maxBitOf insts + 1 < 2 ^ 63 ↔ maxBitOf insts ≤ 2 ^ 63 - 2 := by omega
  rw [hq, hb, maxQubitOf_le_iff, maxBitOf_le_iff]
  simp only [h.qubit_iff, h.bit_iff]
  constructor
  · rintro ⟨⟨-, h1⟩, -, h2⟩ tok ht
    refine ⟨fun e => ?_, fun e => ?_⟩
    · exact (asIsize_le_iff (index_lt_of_targetOf e)).mp (h1 _ ⟨tok, ht, e⟩) rfl
    · exact (asIsize_le_iff (index_lt_of_targetOf e)).mp (h2 _ ⟨tok, ht, e⟩) rfl
  · intro hall
    refine ⟨⟨by omega, ?_⟩, by omega, ?_⟩
    · rintro q ⟨tok, ht, e⟩
      exact (asIsize_le_iff (index_lt_of_targetOf e)).mpr fun hne => (hall tok ht).1 (hne ▸ e)
    · rintro b ⟨tok, ht, e⟩
      exact (asIsize_le_iff (index_lt_of_targetOf e)).mpr fun hne => (hall tok ht).2 (hne ▸ e)

section Texts

variable {text : List Char} {insts : List Instruction}

/-- A token of a documented line. -/
theorem documented_token (h : Documented text insts) {l : List Char} (hl : l ∈ text.splitOn '\n')
    {tok : List Char} (ht : tok ∈ docTokens l) : Plain tok ∧ '+' ∉ tok := by
  rcases h.line_of_mem hl with hb | ⟨inst, hd⟩
  · rw [hb] at ht
    cases ht
  · exact doc_token hd ht

theorem documented_spaced (h : Documented text insts) : ∀ l ∈ text.splitOn '\n', Spaced l :=
  fun _ hl => spaced_of_plain fun _ ht => (documented_token h hl ht).1

/-- A documented text with ids below `2 ^ 63` denotes the same for the parser. -/
theorem program_of_documented (h : Documented text insts) (hids : IdsBelow text) :
    Program (text.splitOn '\n') insts := by
  refine ProgramBy.mono h (fun l hl => (docTokens_eq (documented_spaced h l hl)).symm)
    fun l hl tok ht t e => targetOf_of_docTarget e ?_
  exact (hids l hl tok ht t e).trans (by decide)

/-- A text that the parser reads, spaced and without a sign, is documented. -/
theorem documented_of_program (h : Program (text.splitOn '\n') insts)
    (hspaced : ∀ l ∈ text.splitOn '\n', Spaced l) (hplus : ∀ tok ∈ tokensOf text, '+' ∉ tok) :
    Documented text insts :=
  ProgramBy.mono h (fun l hl => docTokens_eq (hspaced l hl)) fun l hl tok ht _ e =>
    docTarget_of_targetOf e (hplus tok (List.mem_flatMap.mpr ⟨l, hl, ht⟩))

/-- A program whose counts fit parses. -/
theorem exists_parse (h : Program (text.splitOn '\n') insts)
    (hfit : maxQubitOf insts + 1 < 2 ^ 63 ∧ maxBitOf insts + 1 < 2 ^ 63) :
    ∃ c, parse text = pure c ∧ c.instructions = insts :=
  ⟨⟨insts, insts.foldl declare ∅, (maxQubitOf insts + 1).toNat, (maxBitOf insts + 1).toNat⟩,
    parse_eq_pure_iff.mpr ⟨insts, h, hfit.1, hfit.2, rfl, rfl, rfl, rfl⟩, rfl⟩

/-- Where nothing panics, a text whose lines all read is a program whose counts fit. -/
theorem program_of_readable (hpanic : parse text ≠ .panics)
    (hread : ∀ l ∈ text.splitOn '\n', Readable (lineTokens l)) :
    ∃ insts, Program (text.splitOn '\n') insts ∧ maxQubitOf insts + 1 < 2 ^ 63 ∧
      maxBitOf insts + 1 < 2 ^ 63 := by
  obtain ⟨insts, hp⟩ := exists_program_iff.mpr hread
  refine ⟨insts, hp, ?_⟩
  by_contra hn
  exact hpanic (parse_eq_panics.mpr (Or.inr ⟨insts, hp, hn⟩))

theorem Conforms.documented (h : Conforms text)
    (hread : ∀ l ∈ text.splitOn '\n', Readable (lineTokens l)) :
    ∃ insts, Documented text insts := by
  obtain ⟨insts, hp, hfit⟩ := program_of_readable h.noPanic hread
  obtain ⟨c, hc, -⟩ := exists_parse hp hfit
  exact ⟨_, h.denotes c hc⟩

theorem Conforms.strict (h : Conforms text) : Strict text where
  unread pre raw post e hpre hp :=
    h.noPanic (parse_eq_panics.mpr (Or.inl ⟨pre, raw, post, e, hpre, hp⟩))
  extreme hread := by
    obtain ⟨insts, hp, hfit⟩ := program_of_readable h.noPanic hread
    exact (counts_fit_iff hp).mp hfit
  spaced hread := by
    obtain ⟨insts, hdoc⟩ := h.documented hread
    exact documented_spaced hdoc
  unsigned hread tok ht := by
    obtain ⟨insts, hdoc⟩ := h.documented hread
    obtain ⟨l, hl, ht⟩ := List.mem_flatMap.mp ht
    rw [← docTokens_eq (documented_spaced hdoc l hl)] at ht
    exact (documented_token hdoc hl ht).2

theorem Strict.noPanic (h : Strict text) : parse text ≠ .panics := by
  intro hp
  rcases parse_eq_panics.mp hp with ⟨pre, raw, post, e, hpre, hp⟩ | ⟨insts, hp, hfit⟩
  · exact h.unread pre raw post e hpre hp
  · exact hfit ((counts_fit_iff hp).mpr (h.extreme (exists_program_iff.mp ⟨insts, hp⟩)))

theorem Strict.denotes (h : Strict text) {c : Circuit} (hc : parse text = pure c) :
    Documented text c.instructions := by
  obtain ⟨insts, hp, -, -, hb⟩ := parse_eq_pure_iff.mp hc
  have hread := exists_program_iff.mp ⟨insts, hp⟩
  rw [hb.instructions]
  exact documented_of_program hp (h.spaced hread) (h.unsigned hread)

theorem Strict.conforms (h : Strict text) : Conforms text where
  noPanic := h.noPanic
  denotes _ hc := h.denotes hc
  accepts hids := by
    refine ⟨fun ⟨c, hc⟩ => ⟨_, h.denotes hc⟩, ?_⟩
    intro h'
    obtain ⟨insts, hdoc⟩ := h'
    have hp := program_of_documented hdoc hids
    have hfit := (counts_fit_iff hp).mpr (h.extreme (exists_program_iff.mp ⟨insts, hp⟩))
    exact (exists_parse hp hfit).imp fun _ hc => hc.1

end Texts

/-- **The parser conforms exactly on the texts of `Strict`.** -/
theorem conforms_iff (text : List Char) : Conforms text ↔ Strict text :=
  ⟨Conforms.strict, Strict.conforms⟩

/-- A target that begins with `é` panics. -/
theorem accented_panics : ¬Conforms ['X', ' ', 'é', '0'] := fun h => h.noPanic rfl

end GroverTax.Kickmix
