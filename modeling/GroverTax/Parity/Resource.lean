/-
  File:      GroverTax/Parity/Resource.lean
  Subject:   The Rust, the Python and the Cairo resource certification of one text.

  The Rust counts come from the parser, the Python counts from a scan of the lines that
  `str.splitlines` finds. A line of the parser is a piece between newlines; the scan breaks it at
  nine more characters, and counts each part that has code.

  * `map_split_lineCodes` -- what the scan counts in one line of the parser;
  * `OneLine` -- the parts of a line count as the line;
  * `CountsAlike` -- **the texts whose counts agree**;
  * `certify_agree_iff` -- acceptance is the same on every side exactly for those.
-/
import GroverTax.Cairo.Kickmix
import GroverTax.Kickmix.Grammar
import GroverTax.Python.ResourceCert

namespace GroverTax.Parity

open GroverTax.Lib
open GroverTax.Kickmix
open GroverTax.Python (isSpace isLineBreak codes codeOf split codeLines numerals countKmx WordClass
  qubitMatches)

/-! ## 1. A line in parts -/

/-- The tokens of the code of a line that is broken into parts. -/
def partTokens : List (List Char) → List (List Char)
  | [] => []
  | p :: ps => split (codeOf p) ++ if '#' ∈ p then [] else partTokens ps

theorem takeWhile_hash_eq_self {s : List Char} (h : '#' ∉ s) : s.takeWhile (· ≠ '#') = s :=
  List.takeWhile_eq_self_iff.mpr fun _ hc => decide_eq_true fun e => h (e ▸ hc)

theorem takeWhile_hash_append {s : List Char} (t : List Char) (h : '#' ∈ s) :
    (s ++ t).takeWhile (· ≠ '#') = s.takeWhile (· ≠ '#') := by
  rw [List.takeWhile_append, if_neg]
  intro e
  have := List.takeWhile_eq_self_iff.mp ((List.takeWhile_prefix _).eq_of_length e) '#' h
  simp at this

/-- The parts between line breaks hold the tokens of the line. -/
theorem partTokens_splitOnP (l : List Char) :
    partTokens (l.splitOnP isLineBreak) = tokens isSpace (l.takeWhile (· ≠ '#')) := by
  induction h : l.length using Nat.strong_induction_on generalizing l with
  | _ n ih =>
    rcases exists_first_sep isLineBreak l with hall | ⟨w, c, t, rfl, hw, hc⟩
    · rw [List.splitOnP_eq_singleton hall, partTokens, Python.split_codeOf]
      simp [partTokens]
    · have hlt : t.length < n := by
        simp only [List.length_append, List.length_cons] at h
        omega
      rw [List.splitOnP_append_cons _ _ hc, List.splitOnP_eq_singleton hw, List.singleton_append,
        partTokens, ih _ hlt t rfl, Python.split_codeOf]
      by_cases hh : '#' ∈ w
      · rw [if_pos hh, List.append_nil, takeWhile_hash_append _ hh]
      · have hne : decide (c ≠ '#') = true := by
          refine decide_eq_true ?_
          rintro rfl
          revert hc
          decide
        have hall : ∀ d ∈ w, decide (d ≠ '#') = true :=
          fun d hd => decide_eq_true fun e => hh (e ▸ hd)
        rw [if_neg hh, takeWhile_hash_eq_self hh, List.takeWhile_append_of_pos hall,
          List.takeWhile_cons_of_pos (p := fun d => decide (d ≠ '#')) hne, tokens_append_sep _ (Python.isSpace_of_isLineBreak hc)]

def Blank (s : List Char) : Prop := ∀ c ∈ s, isSpace c = true

/-- A part with code has only blank parts before it. -/
def InOrder (ps : List (List Char)) : Prop :=
  ps.Pairwise fun p q => split (codeOf q) ≠ [] → Blank p

theorem Blank.split_codeOf {p : List Char} (h : Blank p) : split (codeOf p) = [] := by
  rw [Python.split_codeOf, tokens_eq_nil]
  exact fun c hc => h c ((List.takeWhile_prefix _).subset hc)

theorem Blank.hash_notMem {p : List Char} (h : Blank p) : '#' ∉ p := fun hm => by
  have := h '#' hm
  revert this
  decide

theorem blank_of_split {p : List Char} (h : split (codeOf p) = []) (hh : '#' ∉ p) : Blank p := by
  rw [Python.split_codeOf, tokens_eq_nil, takeWhile_hash_eq_self hh] at h
  exact h

theorem flatMap_codes_eq_nil {ps : List (List Char)} :
    ps.flatMap codes = [] ↔ ∀ p ∈ ps, split (codeOf p) = [] := by
  rw [List.flatMap_eq_nil_iff]
  exact forall₂_congr fun p _ => Python.codes_eq_nil

theorem partTokens_eq_nil {ps : List (List Char)} (h : ∀ p ∈ ps, split (codeOf p) = []) :
    partTokens ps = [] := by
  induction ps with
  | nil => rfl
  | cons p ps ih =>
    rw [partTokens, h p List.mem_cons_self, ih fun q hq => h q (List.mem_cons_of_mem _ hq)]
    simp

theorem InOrder.of_no_code {p : List Char} {ps : List (List Char)}
    (h : ∀ q ∈ ps, split (codeOf q) = []) : InOrder (p :: ps) := by
  refine List.pairwise_cons.mpr ⟨fun q hq hc => absurd (h q hq) hc, ?_⟩
  exact List.Pairwise.imp_of_mem (fun {_ b} _ hb _ hc => absurd (h b hb) hc)
    (List.pairwise_of_forall (fun _ _ => trivial) (l := ps) (R := fun _ _ => True))

theorem inOrder_cons_blank {p : List Char} {ps : List (List Char)} (h : Blank p) :
    InOrder (p :: ps) ↔ InOrder ps :=
  List.pairwise_cons.trans ⟨And.right, fun hp => ⟨fun _ _ _ => h, hp⟩⟩

theorem inOrder_cons_of_not_blank {p : List Char} {ps : List (List Char)} (h : ¬Blank p) :
    InOrder (p :: ps) ↔ ∀ q ∈ ps, split (codeOf q) = [] := by
  refine ⟨fun hp q hq => ?_, InOrder.of_no_code⟩
  by_contra hc
  exact h ((List.pairwise_cons.mp hp).1 q hq hc)

/-- **Parts in order count as one line**, with the tokens of the line. -/
theorem map_split_codes {ps : List (List Char)} (h : InOrder ps) :
    (ps.flatMap codes).map split = if partTokens ps = [] then [] else [partTokens ps] := by
  induction ps with
  | nil => rfl
  | cons p ps ih =>
    by_cases hb : Blank p
    · rw [List.flatMap_cons, Python.codes_eq_nil.mpr hb.split_codeOf, List.nil_append,
        ih ((inOrder_cons_blank hb).mp h), partTokens, hb.split_codeOf, List.nil_append,
        if_neg hb.hash_notMem]
    · have hps := (inOrder_cons_of_not_blank hb).mp h
      rw [List.flatMap_cons, flatMap_codes_eq_nil.mpr hps, List.append_nil, partTokens,
        partTokens_eq_nil hps, ite_self, List.append_nil, codes]
      split_ifs with h1 h2 h2
      · rfl
      · exact absurd (Python.codeOf_isEmpty.mp h1) h2
      · exact absurd (Python.codeOf_isEmpty.mpr h2) h1
      · rfl

/-- **Parts out of order count as more than one line.** -/
theorem length_codes_of_not {ps : List (List Char)} (h : ¬InOrder ps) :
    (if partTokens ps = [] then 0 else 1) < (ps.flatMap codes).length := by
  induction ps with
  | nil => exact absurd List.Pairwise.nil h
  | cons p ps ih =>
    by_cases hb : Blank p
    · rw [List.flatMap_cons, Python.codes_eq_nil.mpr hb.split_codeOf, List.nil_append, partTokens,
        hb.split_codeOf, List.nil_append, if_neg hb.hash_notMem]
      exact ih fun hp => h ((inOrder_cons_blank hb).mpr hp)
    · have hps : 0 < (ps.flatMap codes).length := by
        refine List.length_pos_iff.mpr fun e => h ?_
        exact (inOrder_cons_of_not_blank hb).mpr (flatMap_codes_eq_nil.mp e)
      rw [List.flatMap_cons, List.length_append]
      by_cases hc : split (codeOf p) = []
      · have hh : '#' ∈ p := by
          by_contra hn
          exact hb (blank_of_split hc hn)
        rw [partTokens, hc, if_pos hh, List.append_nil, if_pos rfl]
        omega
      · have hp : 0 < (codes p).length :=
          List.length_pos_iff.mpr fun e => hc (Python.codes_eq_nil.mp e)
        split_ifs <;> omega

/-! ## 2. The lines of the parser -/

/-- What the scan counts in one line of the parser. -/
def lineCodes (l : List Char) : List (List Char) := (l.splitOnP isLineBreak).flatMap codes

/-- The parts of a line count as the line. -/
def OneLine (l : List Char) : Prop := InOrder (l.splitOnP isLineBreak)

/-- The scan reads the lines of the parser one after the other. -/
theorem codeLines_eq_flatMap (text : List Char) :
    codeLines text = (text.splitOn '\n').flatMap lineCodes := by
  have hbreak : ∀ c : Char, (c == '\n') = true → isLineBreak c = true := by
    intro c hc
    rw [beq_iff_eq.mp hc]
    decide
  rw [Python.codeLines_eq, ← flatMap_splitOnP hbreak, List.flatMap_assoc, List.splitOn_eq_splitOnP]
  rfl

theorem isSpace_of_isWhitespace {c : Char} (h : isWhitespace c = true) : isSpace c = true := by
  simp only [isWhitespace, isSpace, Bool.or_eq_true, Bool.and_eq_true, decide_eq_true_eq,
    beq_iff_eq] at h ⊢
  omega

theorem isSpace_of_plain {s : List Char} (h : Plain s) : ∀ c ∈ s, isSpace c = false := by
  intro c hc
  obtain ⟨h1, h2⟩ := h c hc
  simp only [Python.isSpace, Bool.or_eq_false_iff, Bool.and_eq_false_iff, decide_eq_false_iff_not,
    beq_eq_false_iff_ne]
  omega

/-- **On a line the parser reads, Python finds the same tokens.** -/
theorem tokens_isSpace_eq {l : List Char} (h : ∀ tok ∈ lineTokens l, Plain tok) :
    tokens isSpace (l.takeWhile (· ≠ '#')) = lineTokens l := by
  refine tokens_congr fun c hc => ?_
  cases hw : isWhitespace c with
  | true => exact isSpace_of_isWhitespace hw
  | false =>
    obtain ⟨tok, ht, hct⟩ := exists_mem_tokens hc hw
    exact isSpace_of_plain (h tok ht) c hct

/-- The line is blank, or an instruction. -/
theorem map_split_lineCodes {l : List Char} (h : ∀ tok ∈ lineTokens l, Plain tok)
    (hone : OneLine l) :
    (lineCodes l).map split = if lineTokens l = [] then [] else [lineTokens l] := by
  rw [lineCodes, map_split_codes hone, partTokens_splitOnP, tokens_isSpace_eq h]

theorem length_lineCodes_of_not {l : List Char} (h : ∀ tok ∈ lineTokens l, Plain tok)
    (hone : ¬OneLine l) : (if lineTokens l = [] then 0 else 1) < (lineCodes l).length := by
  have := length_codes_of_not hone
  rwa [partTokens_splitOnP, tokens_isSpace_eq h] at this

theorem length_le_lineCodes {l : List Char} (h : ∀ tok ∈ lineTokens l, Plain tok) :
    (if lineTokens l = [] then 0 else 1) ≤ (lineCodes l).length := by
  by_cases hone : OneLine l
  · have := congrArg List.length (map_split_lineCodes h hone)
    rw [List.length_map] at this
    rw [this]
    split_ifs <;> simp
  · exact (length_lineCodes_of_not h hone).le

/-- **If every line counts as one, the scan finds the instructions of the parser.** -/
theorem forall₂_codes {raws : List (List Char)} {insts : List Instruction}
    (h : Program raws insts) (hone : ∀ l ∈ raws, OneLine l) :
    List.Forall₂ (fun code inst => Kickmix.Denotes (split code) inst) (raws.flatMap lineCodes) insts ∧
      (raws.flatMap lineCodes).flatMap split = raws.flatMap lineTokens := by
  induction h with
  | nil => exact ⟨.nil, rfl⟩
  | @blank raw rest insts hb _ ih =>
    obtain ⟨ih1, ih2⟩ := ih fun l hl => hone l (List.mem_cons_of_mem _ hl)
    have e := map_split_lineCodes (l := raw) (by simp [hb]) (hone _ List.mem_cons_self)
    rw [if_pos hb, List.map_eq_nil_iff] at e
    rw [List.flatMap_cons, e, List.nil_append, List.flatMap_cons, hb, List.nil_append]
    exact ⟨ih1, ih2⟩
  | @line raw rest inst insts hd _ ih =>
    obtain ⟨ih1, ih2⟩ := ih fun l hl => hone l (List.mem_cons_of_mem _ hl)
    have hne : lineTokens raw ≠ [] := by
      intro e
      rw [e] at hd
      cases hd
    have e := map_split_lineCodes (fun tok => plain_token hd) (hone _ List.mem_cons_self)
    rw [if_neg hne, List.map_eq_singleton_iff] at e
    obtain ⟨code, hcode, hsplit⟩ := e
    rw [List.flatMap_cons, hcode, List.singleton_append, List.flatMap_cons, List.flatMap_cons,
      ih2, hsplit]
    exact ⟨.cons (hsplit.symm ▸ hd) ih1, rfl⟩

/-- The scan finds at least the instructions of the parser. -/
theorem length_le_codes {raws : List (List Char)} {insts : List Instruction}
    (h : Program raws insts) : insts.length ≤ (raws.flatMap lineCodes).length := by
  induction h with
  | nil => exact le_rfl
  | @blank raw rest insts hb _ ih =>
    rw [List.flatMap_cons, List.length_append]
    omega
  | @line raw rest inst insts hd _ ih =>
    have hne : lineTokens raw ≠ [] := by
      intro e
      rw [e] at hd
      cases hd
    have := length_le_lineCodes fun tok => plain_token hd
    rw [if_neg hne] at this
    rw [List.flatMap_cons, List.length_append, List.length_cons]
    omega

/-- **A line out of order makes the scan find more.** -/
theorem length_lt_codes {raws : List (List Char)} {insts : List Instruction}
    (h : Program raws insts) (hone : ¬∀ l ∈ raws, OneLine l) :
    insts.length < (raws.flatMap lineCodes).length := by
  induction h with
  | nil => exact absurd (by simp) hone
  | @blank raw rest insts hb hp ih =>
    rw [List.flatMap_cons, List.length_append]
    by_cases hr : OneLine raw
    · have := ih fun h => hone (List.forall_mem_cons.mpr ⟨hr, h⟩)
      omega
    · have h1 := length_lineCodes_of_not (by simp [hb]) hr
      have h2 := length_le_codes hp
      rw [if_pos hb] at h1
      omega
  | @line raw rest inst insts hd hp ih =>
    have hne : lineTokens raw ≠ [] := by
      intro e
      rw [e] at hd
      cases hd
    rw [List.flatMap_cons, List.length_append, List.length_cons]
    by_cases hr : OneLine raw
    · have h1 := ih fun h => hone (List.forall_mem_cons.mpr ⟨hr, h⟩)
      have h2 := length_le_lineCodes fun tok => plain_token hd
      rw [if_neg hne] at h2
      omega
    · have h1 := length_lineCodes_of_not (fun tok => plain_token hd) hr
      have h2 := length_le_codes hp
      rw [if_neg hne] at h1
      omega

/-! ## 3. Qubits -/

section Qubits

variable {word : WordClass}

/-- **The matches in a token**: the numeral of a qubit without a sign. -/
theorem mem_qubitMatches {tok ds : List Char}
    (h : isValidName tok = true ∨ tok = ifToken ∨ ∃ t, targetOf tok = some t) :
    ds ∈ qubitMatches word false tok ↔ tok = 'q' :: ds ∧ Digits ds := by
  have none : 'q' ∉ tok → (ds ∈ qubitMatches word false tok ↔ tok = 'q' :: ds ∧ Digits ds) := by
    intro hq
    rw [Python.qubitMatches_of_notMem hq]
    refine ⟨fun hm => (nomatch hm), ?_⟩
    intro h'
    obtain ⟨rfl, -⟩ := h'
    exact absurd List.mem_cons_self hq
  rcases h with hv | rfl | ⟨t, ht⟩
  · exact none (q_notMem_name hv)
  · exact none (by decide)
  · obtain ⟨rest, id, hid, hk⟩ := targetOf_eq_some.mp ht
    obtain ⟨ds', hds, hd, -⟩ := parseUsize_eq_some.mp hid
    have hrest : 'q' ∉ rest := by
      rcases hds with rfl | rfl
      · exact q_notMem_digits hd
      · simp [q_notMem_digits hd]
    obtain ⟨rfl, -⟩ | ⟨rfl, -⟩ | ⟨rfl, -⟩ := hk
    · rcases hds with rfl | rfl
      · rw [Python.qubitMatches_digits hd.1 hd.2, List.mem_singleton, List.cons.injEq]
        exact ⟨fun e => ⟨⟨rfl, e.symm⟩, e ▸ hd⟩, fun e => e.1.2.symm⟩
      · rw [Python.qubitMatches_sign (by decide) (by decide) (q_notMem_digits hd)]
        refine ⟨fun hm => (nomatch hm), fun e => ?_⟩
        exact absurd (List.cons.inj e.1).2.symm (e.2.ne_plus ds')
    · exact none (by simp [hrest])
    · exact none (by simp [hrest])

/-- **The numerals the scan finds** are those of the qubits without a sign. -/
theorem mem_numerals {text : List Char} {insts : List Instruction}
    (h : Program (text.splitOn '\n') insts) (hone : ∀ l ∈ text.splitOn '\n', OneLine l)
    {ds : List Char} : ds ∈ numerals word text ↔ Digits ds ∧ 'q' :: ds ∈ tokensOf text := by
  have e : numerals word text = (tokensOf text).flatMap (qubitMatches word false) := by
    rw [tokensOf, ← (forall₂_codes h hone).2, ← codeLines_eq_flatMap, List.flatMap_assoc, numerals]
    congr 1
    funext code
    exact Python.qubitMatches_eq word.space code
  rw [e, List.mem_flatMap]
  constructor
  · intro h'
    obtain ⟨tok, ht, hm⟩ := h'
    obtain ⟨rfl, hd⟩ := (mem_qubitMatches (h.token_cases ht)).mp hm
    exact ⟨hd, ht⟩
  · intro h'
    obtain ⟨hd, ht⟩ := h'
    exact ⟨_, ht, (mem_qubitMatches (h.token_cases ht)).mpr ⟨rfl, hd⟩⟩

theorem maxFrom_le_iff {m b : ℤ} {ns : List (List Char)} :
    Python.maxFrom m ns ≤ b ↔ m ≤ b ∧ ∀ ds ∈ ns, (digitsValue ds : ℤ) ≤ b := by
  unfold Python.maxFrom
  induction ns generalizing m with
  | nil => simp
  | cons ds ns ih => rw [List.foldl_cons, ih, max_le_iff, List.forall_mem_cons, and_assoc]

/-- A qubit token of a text that parses has a value below `2 ^ 64`. -/
theorem digitsValue_lt {text : List Char} {insts : List Instruction}
    (h : Program (text.splitOn '\n') insts) {ds : List Char} (hd : Digits ds)
    (hm : 'q' :: ds ∈ tokensOf text ∨ 'q' :: '+' :: ds ∈ tokensOf text) :
    digitsValue ds < usizeSize := by
  have target : ∀ s t, targetOf ('q' :: s) = some t → parseUsize s ≠ none := by
    intro s t ht hn
    simp [targetOf, hn] at ht
  have key : ∀ s, 'q' :: s ∈ tokensOf text → ∃ n, parseUsize s = some n := by
    intro s hs
    rcases h.token_cases hs with hv | e | ⟨t, ht⟩
    · exact absurd List.mem_cons_self (q_notMem_name hv)
    · cases e
    · exact Option.ne_none_iff_exists'.mp (target s t ht)
  rcases hm with hm | hm
  · obtain ⟨n, hn⟩ := key ds hm
    obtain ⟨ds', rfl | rfl, h1, h2, -⟩ := parseUsize_eq_some.mp hn
    · exact h2
    · exact absurd rfl (hd.ne_plus ds')
  · obtain ⟨n, hn⟩ := key ('+' :: ds) hm
    obtain ⟨ds', e | e, h1, h2, -⟩ := parseUsize_eq_some.mp hn
    · exact absurd e.symm (h1.ne_plus ds)
    · rwa [(List.cons.inj e).2]

theorem asIsize_neg {n : ℕ} (h : 2 ^ 63 ≤ n) (h' : n < usizeSize) : asIsize n < 0 := by
  unfold usizeSize at h'
  unfold asIsize
  rw [if_neg (by omega)]
  omega

end Qubits

/-! ## 4. The texts whose counts agree -/

/-- **The texts whose counts agree.** -/
structure CountsAlike (text : List Char) : Prop where
  /-- No line has code after a line break of Python that follows anything but whitespace. -/
  lines : ∀ l ∈ text.splitOn '\n', OneLine l
  /-- A qubit has at most 4300 digits and an index that fits an `isize`. -/
  plain : ∀ ds, Digits ds → 'q' :: ds ∈ tokensOf text → ds.length ≤ 4300 ∧ digitsValue ds < 2 ^ 63
  /-- A qubit written with a sign is not the greatest one. -/
  signed : ∀ ds, Digits ds → 'q' :: '+' :: ds ∈ tokensOf text → digitsValue ds < 2 ^ 63 →
    ∃ ds', Digits ds' ∧ 'q' :: ds' ∈ tokensOf text ∧ digitsValue ds ≤ digitsValue ds'

section Counts

variable {word : WordClass} {text : List Char} {insts : List Instruction}

/-- The greatest qubit of Python is one of Rust. -/
theorem maxFrom_le_maxQubitOf_iff (word : WordClass) (h : Program (text.splitOn '\n') insts)
    (hone : ∀ l ∈ text.splitOn '\n', OneLine l) (hcount : maxQubitOf insts + 1 < 2 ^ 63) :
    Python.maxFrom (-1) (numerals word text) ≤ maxQubitOf insts ↔
      ∀ ds, Digits ds → 'q' :: ds ∈ tokensOf text → digitsValue ds < 2 ^ 63 := by
  obtain ⟨h0, hall⟩ := maxQubitOf_le_iff.mp (le_refl (maxQubitOf insts))
  rw [maxFrom_le_iff]
  constructor
  · rintro ⟨-, hle⟩ ds hd hm
    have := hle ds ((mem_numerals h hone).mpr ⟨hd, hm⟩)
    omega
  · refine fun hlt => ⟨h0, fun ds hds => ?_⟩
    obtain ⟨hd, hm⟩ := (mem_numerals h hone).mp hds
    have hq := hall (digitsValue ds) (h.qubit_iff.mpr ⟨_, hm, targetOf_qubit_iff.mpr
      ⟨ds, Or.inl rfl, hd, digitsValue_lt h hd (Or.inl hm), rfl⟩⟩)
    rwa [asIsize_of_lt (hlt ds hd hm)] at hq

/-- The greatest qubit of Rust is one of Python. -/
theorem maxQubitOf_le_maxFrom_iff (word : WordClass) (h : Program (text.splitOn '\n') insts)
    (hone : ∀ l ∈ text.splitOn '\n', OneLine l)
    (hplain : ∀ ds, Digits ds → 'q' :: ds ∈ tokensOf text → digitsValue ds < 2 ^ 63) :
    maxQubitOf insts ≤ Python.maxFrom (-1) (numerals word text) ↔
      ∀ ds, Digits ds → 'q' :: '+' :: ds ∈ tokensOf text → digitsValue ds < 2 ^ 63 →
        ∃ ds', Digits ds' ∧ 'q' :: ds' ∈ tokensOf text ∧ digitsValue ds ≤ digitsValue ds' := by
  obtain ⟨h0, hall⟩ :=
    maxFrom_le_iff.mp (le_refl (Python.maxFrom (-1) (numerals word text)))
  rw [maxQubitOf_le_iff]
  constructor
  · rintro ⟨-, hle⟩ ds hd hm hlt
    have hq := hle (digitsValue ds) (h.qubit_iff.mpr ⟨_, hm, targetOf_qubit_iff.mpr
      ⟨ds, Or.inr rfl, hd, digitsValue_lt h hd (Or.inr hm), rfl⟩⟩)
    rw [asIsize_of_lt hlt] at hq
    by_contra hnone
    push Not at hnone
    have hbelow : Python.maxFrom (-1) (numerals word text) ≤ (digitsValue ds : ℤ) - 1 := by
      refine maxFrom_le_iff.mpr ⟨by omega, fun ds' hds' => ?_⟩
      obtain ⟨hd', hm'⟩ := (mem_numerals h hone).mp hds'
      have := hnone ds' hd' hm'
      omega
    omega
  · refine fun hsigned => ⟨h0, fun q hq => ?_⟩
    obtain ⟨tok, hm, ht⟩ := h.qubit_iff.mp hq
    obtain ⟨ds, htok, hd, hlt, rfl⟩ := targetOf_qubit_iff.mp ht
    rcases htok with rfl | rfl
    · rw [asIsize_of_lt (hplain ds hd hm)]
      exact hall ds ((mem_numerals h hone).mpr ⟨hd, hm⟩)
    · by_cases hs : digitsValue ds < 2 ^ 63
      · obtain ⟨ds', hd', hm', hle⟩ := hsigned ds hd hm hs
        have := hall ds' ((mem_numerals h hone).mpr ⟨hd', hm'⟩)
        rw [asIsize_of_lt hs]
        omega
      · have := asIsize_neg (by omega) hlt
        omega

/-- A line of code and its instruction are both non-Clifford, or neither. -/
theorem isNonClifford_eq {code : List Char} {inst : Instruction} (h : Kickmix.Denotes (split code) inst) :
    Python.isNonClifford code = isNonClifford inst := by
  unfold Python.isNonClifford
  generalize split code = toks at h
  cases h with
  | @intro name rest _ _ _ _ _ _ _ =>
    have ccx : String.ofList name = "CCX" ↔ name = ['C', 'C', 'X'] := String.ofList_inj
    have ccz : String.ofList name = "CCZ" ↔ name = ['C', 'C', 'Z'] := String.ofList_inj
    simp [isNonClifford, Python.NON_CLIFFORD, ccx, ccz]

theorem countP_isNonClifford {codes : List (List Char)} {insts : List Instruction}
    (h : List.Forall₂ (fun code inst => Kickmix.Denotes (split code) inst) codes insts) :
    codes.countP Python.isNonClifford = (insts.filter isNonClifford).length := by
  induction h with
  | nil => rfl
  | cons hd _ ih =>
    rw [List.countP_cons, ih, isNonClifford_eq hd, ← List.countP_eq_length_filter,
      ← List.countP_eq_length_filter, List.countP_cons]

/-- **The scan returns the counts of the parser exactly for the texts of `CountsAlike`.** -/
theorem countKmx_eq_iff {c : Circuit} (h : parse text = pure c) {n : ℕ} :
    countKmx word text n = some (countResources c n) ↔ CountsAlike text := by
  obtain ⟨insts, hp, hq, -, hb⟩ := parse_eq_pure_iff.mp h
  have hpos : -1 ≤ maxQubitOf insts := (maxQubitOf_le_iff.mp le_rfl).1
  have hpos' : -1 ≤ Python.maxFrom (-1) (numerals word text) := (maxFrom_le_iff.mp le_rfl).1
  rw [Python.countKmx_eq_some, countResources, hb.instructions, hb.numQubits,
    ResourceCounts.mk.injEq]
  constructor
  · intro h'
    obtain ⟨hlen, -, hmax, -, hinst⟩ := h'
    have hone : ∀ l ∈ text.splitOn '\n', OneLine l := by
      by_contra hn
      have := length_lt_codes hp hn
      rw [codeLines_eq_flatMap] at hinst
      omega
    have hplain := (maxFrom_le_maxQubitOf_iff word hp hone hq).mp (by omega)
    refine ⟨hone, fun ds hd hm => ⟨hlen ds ((mem_numerals hp hone).mpr ⟨hd, hm⟩),
      hplain ds hd hm⟩, ?_⟩
    exact (maxQubitOf_le_maxFrom_iff word hp hone hplain).mp (by omega)
  · intro h'
    obtain ⟨hone, hplain, hsigned⟩ := h'
    have hplain' := fun ds hd hm => (hplain ds hd hm).2
    have h1 := (maxFrom_le_maxQubitOf_iff word hp hone hq).mpr hplain'
    have h2 := (maxQubitOf_le_maxFrom_iff word hp hone hplain').mpr hsigned
    have hf := (forall₂_codes hp hone).1
    rw [← codeLines_eq_flatMap] at hf
    refine ⟨fun ds hds => ?_, rfl, by omega, (countP_isNonClifford hf).symm, hf.length_eq.symm⟩
    obtain ⟨hd, hm⟩ := (mem_numerals hp hone).mp hds
    exact (hplain ds hd hm).1

end Counts

/-! ## 5. Acceptance -/

/-- The bounds are `u64` values. -/
structure BoundsFit (demanded : DemandedBounds) : Prop where
  numSamples : demanded.numSamples < 2 ^ 64
  maxQubitCount : demanded.maxQubitCount < 2 ^ 64
  maxNonCliffordCount : demanded.maxNonCliffordCount < 2 ^ 64
  maxCircuitInstructions : demanded.maxCircuitInstructions < 2 ^ 64

/-- The code Cairo gives a violation. -/
def violationCode : Violation → ℕ
  | .tooFewSamples _ _ => 1
  | .qubitCapExceeded _ _ => 2
  | .nonCliffordCapExceeded _ _ => 3
  | .instructionCapExceeded _ _ => 4
  | .badSentinel _ => 5

/-- The three sides give one verdict on `text`, which parses to `c`. -/
def SameAcceptance (word : WordClass) (text : List Char) (c : Circuit) : Prop :=
  ∀ numSamples < 2 ^ 64, ∀ demanded, BoundsFit demanded →
    let rust := certify (countResources c numSamples) SENTINEL demanded
    (rust = [] ↔ ∃ counts, countKmx word text numSamples = some counts ∧
        Python.certify counts SENTINEL demanded = []) ∧
      Cairo.Kickmix.certify (countResources c numSamples) SENTINEL demanded =
        (rust.head?.map violationCode).getD 0

/-- **Cairo returns the code of the first violation Rust lists**, `0` if there is none. -/
theorem cairo_certify_eq (counts : ResourceCounts) (sentinel : ℕ) (demanded : DemandedBounds) :
    Cairo.Kickmix.certify counts sentinel demanded =
      ((certify counts sentinel demanded).head?.map violationCode).getD 0 := by
  unfold Cairo.Kickmix.certify certify Cairo.Kickmix.SENTINEL SENTINEL
  split_ifs <;> rfl

theorem meets_self (counts : ResourceCounts) : Meets counts ⟨counts.numSamples,
    counts.maxQubitCount, counts.maxNonCliffordCount, counts.maxCircuitInstructions⟩ :=
  ⟨le_rfl, le_rfl, le_rfl, le_rfl⟩

/-- Acceptance is the same for all bounds exactly when the counts are the same. -/
theorem sameAcceptance_iff {word : WordClass} {text : List Char} {c : Circuit}
    (hq : c.numQubits < 2 ^ 64) (hi : c.instructions.length < 2 ^ 64) :
    SameAcceptance word text c ↔
      ∀ n < 2 ^ 64, countKmx word text n = some (countResources c n) := by
  have hnc : (c.instructions.filter isNonClifford).length < 2 ^ 64 :=
    (List.length_filter_le _ _).trans_lt hi
  constructor
  · intro h n hn
    obtain ⟨p, hp, hle⟩ := ((h n hn ⟨n, _, _, _⟩ ⟨hn, hq, hnc, hi⟩).1.mp
      (certify_eq_nil.mpr ⟨meets_self (countResources c n), rfl⟩))
    obtain ⟨-, h2, h3, h4⟩ := (Python.certify_eq_nil.mp hle).1
    have hsamples : p.numSamples = n := by
      rw [(Python.countKmx_eq_some.mp hp).2]
    have hge := (h n hn ⟨n, p.maxQubitCount, p.maxNonCliffordCount, p.maxCircuitInstructions⟩
      ⟨hn, h2.trans_lt hq, h3.trans_lt hnc, h4.trans_lt hi⟩).1.mpr
      ⟨p, hp, Python.certify_eq_nil.mpr ⟨⟨hsamples.ge, le_rfl, le_rfl, le_rfl⟩, rfl⟩⟩
    obtain ⟨-, g2, g3, g4⟩ := (certify_eq_nil.mp hge).1
    rw [hp, Option.some_inj]
    obtain ⟨pn, pq, pc, pi⟩ := p
    rw [countResources, ResourceCounts.mk.injEq]
    exact ⟨hsamples, h2.antisymm g2, h3.antisymm g3, h4.antisymm g4⟩
  · intro h n hn demanded _
    refine ⟨?_, cairo_certify_eq _ _ _⟩
    rw [h n hn, certify_eq_nil]
    simp only [Option.some_inj, exists_eq_left', Python.certify_eq_nil]

/-- **Acceptance is the same on every side exactly for the texts of `CountsAlike`.** A `&str` has
    fewer than `2 ^ 63` characters. -/
theorem certify_agree_iff (word : WordClass) (text : List Char) (c : Circuit)
    (hparse : parse text = pure c) (hlen : text.length < 2 ^ 63) :
    SameAcceptance word text c ↔ CountsAlike text := by
  obtain ⟨insts, hp, hq, -, hb⟩ := parse_eq_pure_iff.mp hparse
  have hinsts : c.instructions.length < 2 ^ 64 := by
    have h1 := hp.length_le
    have h2 := length_splitOnP_le (· == '\n') text
    rw [← List.splitOn_eq_splitOnP] at h2
    rw [hb.instructions]
    omega
  have hqubits : c.numQubits < 2 ^ 64 := by
    rw [hb.numQubits]
    omega
  rw [sameAcceptance_iff hqubits hinsts]
  exact ⟨fun h => (countKmx_eq_iff hparse).mp (h 0 (by decide)),
    fun h n _ => (countKmx_eq_iff hparse).mpr h⟩

/-- The words of ASCII alone. -/
def asciiWord : WordClass where
  isWord c := c.isAlphanum || c == '_'
  ascii _ _ := rfl
  space _ hc := Python.notWord_of_isSpace hc

/-- A circuit of one gate. -/
theorem certify_agree_iff_gate : ∃ c, parse ['X', ' ', 'q', '0'] = pure c ∧
    (SameAcceptance asciiWord ['X', ' ', 'q', '0'] c ↔ CountsAlike ['X', ' ', 'q', '0']) :=
  ⟨_, rfl, certify_agree_iff asciiWord _ _ rfl (by decide)⟩

/-- A carriage return in a comment: the parser reads a comment, the scan a comment and a gate. -/
theorem comment_hides_gate : ∃ c, parse ['#', ' ', 'c', '\r', 'X', ' ', 'q', '0'] = pure c ∧
    ¬SameAcceptance asciiWord ['#', ' ', 'c', '\r', 'X', ' ', 'q', '0'] c := by
  refine ⟨_, rfl, fun h => ?_⟩
  obtain ⟨counts, hc, hn⟩ := (h 0 (by decide) ⟨0, 0, 0, 0⟩
    ⟨by decide, by decide, by decide, by decide⟩).1.mp rfl
  have hcount : countKmx asciiWord ['#', ' ', 'c', '\r', 'X', ' ', 'q', '0'] 0 =
      some ⟨0, 1, 0, 1⟩ := by decide
  rw [hcount, Option.some_inj] at hc
  subst hc
  exact absurd (Python.certify_eq_nil.mp hn).1.maxQubitCount (by decide)

end GroverTax.Parity
