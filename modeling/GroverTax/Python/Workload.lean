/-
  File:      GroverTax/Python/Workload.lean
  Subject:   The parser of WORKLOAD.md, src/python/grover_tax/workload.py.

  * `loadWorkloadMd` -- the parser, on the text of the file;
  * `Workload.WellFormed` -- what a workload is: cells without a bar or a line break and without
    whitespace around them, six rows, the commit 40 hexadecimal digits;
  * `render` -- the file of a workload;
  * **`loadWorkloadMd_exact`** -- **the parser accepts only workloads**, and every workload whose file
    has no placeholder is read back from it.
-/
import GroverTax.Python.IaddFixture
import GroverTax.Python.Text

namespace GroverTax.Python

open GroverTax.Lib

/-! ## 1. The parser -/

/-- One row of the table. -/
structure WorkloadField where
  name : List Char
  source : List Char
  value : List Char
  notes : List Char
  deriving DecidableEq, Repr

structure Workload where
  upstreamRepo : List Char
  upstreamCommit : List Char
  pinnedAt : List Char
  pinnedBy : List Char
  fixtureTargetVersion : List Char
  fields : List WorkloadField
  deriving DecidableEq, Repr

/-- What stops the parser, always as FIXTURE.WORKLOAD_NOT_PINNED. -/
inductive WorkloadError where
  /-- {path} still contains TBD -/
  | containsTbd
  /-- {path} has no leading `---` frontmatter delimiter -/
  | noLeading
  /-- {path} has no closing `---` frontmatter delimiter -/
  | noClosing
  /-- {path}: frontmatter line missing `:` separator: {raw!r} -/
  | noSeparator (raw : List Char)
  /-- {path}: frontmatter missing keys {missing} -/
  | missingKeys (missing : List (List Char))
  /-- upstream_commit malformed (want 40-char lowercase hex SHA, got {upstream_commit!r}) -/
  | commit (got : List Char)
  /-- {path}: workload table not found -/
  | noTable
  /-- {path}: workload table row has {len(cells)} cells, want 4: {raw!r} -/
  | cells (count : ℕ) (raw : List Char)
  /-- {path}: workload table has {len(rows)} rows, want 6 -/
  | rows (count : ℕ)
  deriving DecidableEq, Repr

def FRONTMATTER_DELIM : List Char := "---".toList

def REQUIRED_FRONTMATTER_KEYS : List (List Char) :=
  ["upstream_repo".toList, "upstream_commit".toList, "pinned_at".toList, "pinned_by".toList,
    "fixture_target_version".toList]

def TABLE_ROWS : ℕ := 6

/-- `re.search(r"\bTBD\b", text)`, after a character that is of a word or not. -/
def searchTbd (word : WordClass) (inWord : Bool) : List Char → Bool
  | [] => false
  | c :: s =>
      (!inWord && "TBD".toList.isPrefixOf (c :: s) && word.ends (s.drop 2)) ||
        searchTbd word (word.isWord c) s

/-- The entries of the block, the last of one key first. -/
abbrev Frontmatter := List (List Char × List Char)

/-- One line of the block. -/
def frontmatterLine (frontmatter : Frontmatter) (raw : List Char) :
    Except WorkloadError Frontmatter :=
  let line := strip raw
  if line = [] then .ok frontmatter
  else if ':' ∉ line then .error (.noSeparator raw)
  else .ok ((strip (line.takeWhile (· ≠ ':')), strip ((line.dropWhile (· ≠ ':')).drop 1)) ::
    frontmatter)

/-- The line is a delimiter. -/
def isDelim (raw : List Char) : Bool := strip raw = FRONTMATTER_DELIM

/-- `_split_frontmatter`. -/
def splitFrontmatter (text : List Char) : Except WorkloadError (Frontmatter × List Char) :=
  match splitlines text with
  | [] => .error .noLeading
  | first :: rest =>
      if isDelim first = false then .error .noLeading
      else
        match rest.dropWhile fun raw => !isDelim raw with
        | [] => .error .noClosing
        | _ :: after => do
            let frontmatter ← (rest.takeWhile fun raw => !isDelim raw).foldlM frontmatterLine []
            return (frontmatter, ['\n'].intercalate after)

/-- `_assert_required_keys`. -/
def assertRequiredKeys (frontmatter : Frontmatter) : Except WorkloadError Unit :=
  let missing := REQUIRED_FRONTMATTER_KEYS.filter fun k => (frontmatter.lookup k).isNone
  if missing = [] then .ok () else .error (.missingKeys missing)

/-- `re.match(r"^\s*\|\s*-{3,}\s*\|", raw)`. -/
def isTableDivider (raw : List Char) : Bool :=
  match raw.dropWhile isSpace with
  | '|' :: s =>
      let dashes := s.dropWhile isSpace
      decide (3 ≤ (dashes.takeWhile (· = '-')).length) &&
        ((dashes.dropWhile (· = '-')).dropWhile isSpace).head? == some '|'
  | _ => false

/-- `_split_table_row`. -/
def splitTableRow (raw : List Char) : Option (List (List Char)) :=
  let stripped := strip raw
  if stripped.head? ≠ some '|' ∨ stripped.getLast? ≠ some '|' then none
  else some (((stripped.drop 1).dropLast.splitOn '|').map strip)

/-- The rows from a line on; the first line that is none ends the table. -/
def tableRows : List (List Char) → Except WorkloadError (List WorkloadField)
  | [] => .ok []
  | raw :: lines =>
      match splitTableRow raw with
      | none => .ok []
      | some [name, source, value, notes] => do
          let rows ← tableRows lines
          return ⟨name, source, value, notes⟩ :: rows
      | some cells => .error (.cells cells.length raw)

/-- `_parse_table`. -/
def parseTable (body : List Char) : Except WorkloadError (List WorkloadField) :=
  let lines := splitlines body
  match lines.findIdx? isTableDivider with
  | none | some 0 => .error .noTable
  | some (i + 1) => do
      let rows ← tableRows (lines.drop (i + 2))
      if rows.length ≠ TABLE_ROWS then .error (.rows rows.length) else .ok rows

/-- `load_workload_md`, on the text of the file. -/
def loadWorkloadMd (word : WordClass) (text : List Char) : Except WorkloadError Workload :=
  if searchTbd word false text = true then .error .containsTbd
  else do
    let (frontmatter, body) ← splitFrontmatter text
    assertRequiredKeys frontmatter
    let entry := fun key : String => (frontmatter.lookup key.toList).getD []
    if matchesHex 40 (entry "upstream_commit") = false then .error (.commit (entry "upstream_commit"))
    else do
      let fields ← parseTable body
      return {
        upstreamRepo := entry "upstream_repo"
        upstreamCommit := entry "upstream_commit"
        pinnedAt := entry "pinned_at"
        pinnedBy := entry "pinned_by"
        fixtureTargetVersion := entry "fixture_target_version"
        fields := fields }

/-! ## 2. Lines and cells -/

/-- Text that stands on one line with nothing around it. -/
structure Trimmed (s : List Char) : Prop where
  strip : strip s = s
  line : ∀ c ∈ s, isLineBreak c = false

section Lines

variable {s t line : List Char} {ls : List (List Char)}

/-- No line of a text has a line break in it. -/
theorem line_of_mem_splitlinesFrom {line s : List Char} (hline : ∀ c ∈ line, isLineBreak c = false) :
    ∀ l ∈ splitlinesFrom line s, ∀ c ∈ l, isLineBreak c = false := by
  fun_induction splitlinesFrom line s with
  | case1 => exact List.forall_mem_nil _
  | case2 line _ => exact List.forall_mem_singleton.mpr hline
  | case3 line s ih =>
    exact List.forall_mem_cons.mpr ⟨hline, ih (List.forall_mem_nil _)⟩
  | case4 line c s _ _ ih =>
    exact List.forall_mem_cons.mpr ⟨hline, ih (List.forall_mem_nil _)⟩
  | case5 line c s _ hc ih =>
    refine ih fun d hd => ?_
    rcases List.mem_append.mp hd with hd | hd
    · exact hline d hd
    · rw [List.mem_singleton.mp hd]
      exact Bool.eq_false_of_not_eq_true hc

theorem line_of_mem_splitlines (h : s ∈ splitlines t) : ∀ c ∈ s, isLineBreak c = false :=
  line_of_mem_splitlinesFrom (List.forall_mem_nil _) s h

theorem line_of_all (h : (s.all fun c => !isLineBreak c) = true) :
    ∀ c ∈ s, isLineBreak c = false := by
  intro c hc
  have hnot := List.all_eq_true.mp h c hc
  rwa [Bool.not_eq_true'] at hnot

/-- A piece of a line is read into the current line. -/
theorem splitlinesFrom_append : ∀ {l : List Char} (line s : List Char),
    (∀ c ∈ l, isLineBreak c = false) → splitlinesFrom line (l ++ s) = splitlinesFrom (line ++ l) s
  | [], line, s, _ => by rw [List.nil_append, List.append_nil]
  | c :: l, line, s, h => by
      obtain ⟨hc, hl⟩ := List.forall_mem_cons.mp h
      have hne : c ≠ '\r' := by
        rintro rfl
        exact absurd hc (by decide)
      rw [List.cons_append, splitlinesFrom, if_neg (by rw [hc]; decide), splitlinesFrom_append _ _ hl,
        List.append_assoc]
      · rfl
      · exact fun _ e => absurd e hne

theorem splitlinesFrom_newline (line s : List Char) :
    splitlinesFrom line ('\n' :: s) = line :: splitlinesFrom [] s := by
  rw [splitlinesFrom, if_pos (by decide)]
  exact fun _ e => absurd e (by decide)

/-- **The lines of a text that was put together from lines.** -/
theorem splitlines_unlines : ∀ {ls : List (List Char)},
    (∀ l ∈ ls, ∀ c ∈ l, isLineBreak c = false) → splitlines (unlines '\n' ls) = ls
  | [], _ => rfl
  | l :: ls, h => by
      obtain ⟨hl, hls⟩ := List.forall_mem_cons.mp h
      have e : unlines '\n' (l :: ls) = l ++ '\n' :: unlines '\n' ls := by
        rw [unlines, List.flatMap_cons, List.append_assoc]
        rfl
      rw [splitlines, e, splitlinesFrom_append _ _ hl, List.nil_append, splitlinesFrom_newline]
      exact congrArg (l :: ·) (splitlines_unlines hls)

/-- The same without a line break at the end, if the last line is not empty. -/
theorem splitlines_intercalate : ∀ {ls : List (List Char)},
    (∀ l ∈ ls, ∀ c ∈ l, isLineBreak c = false) → (∀ l ∈ ls, l ≠ []) →
      splitlines (['\n'].intercalate ls) = ls
  | [], _, _ => rfl
  | [l], h, hne => by
      have e := splitlinesFrom_append [] [] (List.forall_mem_singleton.mp h)
      rw [List.append_nil, List.nil_append] at e
      rw [List.intercalate_singleton, splitlines, e, splitlinesFrom,
        if_neg (hne l List.mem_cons_self)]
  | l :: l' :: ls, h, hne => by
      obtain ⟨hl, hls⟩ := List.forall_mem_cons.mp h
      rw [List.intercalate_cons_cons, List.append_assoc, List.singleton_append, splitlines,
        splitlinesFrom_append _ _ hl, List.nil_append, splitlinesFrom_newline]
      exact congrArg (l :: ·) (splitlines_intercalate hls (List.forall_mem_cons.mp hne).2)

end Lines

section Strip

variable {s : List Char}

theorem mem_of_mem_strip {c : Char} (h : c ∈ strip s) : c ∈ s :=
  (List.dropWhile_suffix isSpace).subset ((List.rdropWhile_prefix isSpace _).subset h)

/-- What does not begin with whitespace does not after its end is cut off. -/
theorem dropWhile_rdropWhile (h : s.dropWhile isSpace = s) :
    (s.rdropWhile isSpace).dropWhile isSpace = s.rdropWhile isSpace := by
  cases e : s.rdropWhile isSpace with
  | nil => rfl
  | cons c u =>
    obtain ⟨v, hv⟩ := List.rdropWhile_prefix isSpace (l := s)
    rw [e] at hv
    rw [← hv, List.cons_append] at h
    have hc : ¬ isSpace c = true := by
      intro hc
      rw [List.dropWhile_cons_of_pos hc] at h
      have := congrArg List.length h
      have hle := (List.dropWhile_suffix isSpace (l := u ++ v)).length_le
      rw [List.length_cons] at this
      omega
    rw [List.dropWhile_cons_of_neg hc]

theorem strip_strip (s : List Char) : strip (strip s) = strip s := by
  have h := dropWhile_rdropWhile (s := s.dropWhile isSpace) (List.dropWhile_idempotent _ _)
  unfold strip trim
  rw [h, List.rdropWhile_idempotent]

theorem strip_eq_self (hhead : ∀ c, s.head? = some c → isSpace c = false)
    (hlast : ∀ c, s.getLast? = some c → isSpace c = false) : strip s = s := by
  have hdrop : s.dropWhile isSpace = s := by
    cases s with
    | nil => rfl
    | cons c u => exact List.dropWhile_cons_of_neg (by rw [hhead c rfl]; decide)
  unfold strip trim
  rw [hdrop, List.rdropWhile_eq_self_iff]
  intro hne
  rw [hlast _ (List.getLast?_eq_some_getLast hne)]
  decide

theorem trimmed_strip (h : ∀ c ∈ s, isLineBreak c = false) : Trimmed (strip s) :=
  ⟨strip_strip s, fun c hc => h c (mem_of_mem_strip hc)⟩

theorem trimmed_nil : Trimmed [] := ⟨rfl, List.forall_mem_nil _⟩

theorem Trimmed.last (h : Trimmed s) : ∀ c, s.getLast? = some c → isSpace c = false := by
  intro c hc
  have hne : s ≠ [] := by
    rintro rfl
    cases hc
  have hs : s.rdropWhile isSpace = s := by
    have hstrip : trim isSpace s = s := h.strip
    unfold trim at hstrip
    have hle := (List.rdropWhile_prefix isSpace (l := s.dropWhile isSpace)).length_le
    have hle' := (List.dropWhile_suffix isSpace (l := s)).length_le
    rw [hstrip] at hle
    have hdrop : s.dropWhile isSpace = s :=
      (List.dropWhile_suffix isSpace).eq_of_length (Nat.le_antisymm hle' hle)
    rwa [hdrop] at hstrip
  have hnot := List.rdropWhile_eq_self_iff.mp hs hne
  rw [List.getLast?_eq_some_getLast hne] at hc
  rw [← Option.some.inj hc]
  exact Bool.eq_false_of_not_eq_true hnot

end Strip

/-! ## 3. What is accepted -/

/-- The entries of the block. -/
def Workload.entries (w : Workload) : Frontmatter :=
  [("upstream_repo".toList, w.upstreamRepo), ("upstream_commit".toList, w.upstreamCommit),
    ("pinned_at".toList, w.pinnedAt), ("pinned_by".toList, w.pinnedBy),
    ("fixture_target_version".toList, w.fixtureTargetVersion)]

def WorkloadField.cells (f : WorkloadField) : List (List Char) := [f.name, f.source, f.value, f.notes]

/-- Text that stands in a table. -/
def IsCell (s : List Char) : Prop := Trimmed s ∧ '|' ∉ s

structure Workload.WellFormed (w : Workload) : Prop where
  entries : ∀ e ∈ w.entries, Trimmed e.2
  commit : w.upstreamCommit.length = 40 ∧ ∀ c ∈ w.upstreamCommit, isLowerHex c = true
  rows : w.fields.length = TABLE_ROWS
  cells : ∀ f ∈ w.fields, ∀ c ∈ f.cells, IsCell c

section Accepted

variable {raw : List Char} {lines : List (List Char)} {frontmatter : Frontmatter}

theorem frontmatterLine_trimmed {frontmatter' : Frontmatter} (hraw : ∀ c ∈ raw, isLineBreak c = false)
    (h : frontmatterLine frontmatter raw = .ok frontmatter')
    (hfm : ∀ e ∈ frontmatter, Trimmed e.2) : ∀ e ∈ frontmatter', Trimmed e.2 := by
  unfold frontmatterLine at h
  dsimp only at h
  split_ifs at h with hempty hcolon
  · cases h
    exact hfm
  · obtain rfl := Except.ok.inj h
    refine List.forall_mem_cons.mpr ⟨trimmed_strip fun c hc => ?_, hfm⟩
    have hmem : c ∈ strip raw := (List.dropWhile_suffix _).subset ((List.drop_suffix 1 _).subset hc)
    exact hraw c (mem_of_mem_strip hmem)

theorem foldlM_trimmed : ∀ {lines : List (List Char)} {frontmatter frontmatter' : Frontmatter},
    (∀ l ∈ lines, ∀ c ∈ l, isLineBreak c = false) → (∀ e ∈ frontmatter, Trimmed e.2) →
      lines.foldlM frontmatterLine frontmatter = .ok frontmatter' → ∀ e ∈ frontmatter', Trimmed e.2
  | [], _, _, _, hfm, h => by
      cases h
      exact hfm
  | raw :: lines, _, _, hlines, hfm, h => by
      obtain ⟨hraw, hlines⟩ := List.forall_mem_cons.mp hlines
      obtain ⟨fm, h1, h2⟩ := bind_eq_ok.mp h
      exact foldlM_trimmed hlines (frontmatterLine_trimmed hraw h1 hfm) h2

theorem splitFrontmatter_trimmed {text body : List Char}
    (h : splitFrontmatter text = .ok (frontmatter, body)) : ∀ e ∈ frontmatter, Trimmed e.2 := by
  unfold splitFrontmatter at h
  split at h
  · cases h
  rename_i first rest hlines
  split_ifs at h with hfirst
  split at h
  · cases h
  obtain ⟨fm, hfm, h⟩ := bind_eq_ok.mp h
  obtain ⟨rfl, -⟩ := Prod.mk.inj (Except.ok.inj h)
  refine foldlM_trimmed (fun l hl => line_of_mem_splitlines (t := text) ?_) (List.forall_mem_nil _) hfm
  rw [hlines]
  exact List.mem_cons_of_mem _ ((List.takeWhile_prefix _).subset hl)

/-- The value under a key, or nothing. -/
theorem trimmed_lookup (h : ∀ e ∈ frontmatter, Trimmed e.2) (key : List Char) :
    Trimmed ((frontmatter.lookup key).getD []) := by
  induction frontmatter with
  | nil => exact trimmed_nil
  | cons e frontmatter ih =>
    obtain ⟨k, v⟩ := e
    obtain ⟨hv, hrest⟩ := List.forall_mem_cons.mp h
    rw [List.lookup_cons]
    cases key == k with
    | true => exact hv
    | false => exact ih hrest

theorem splitTableRow_cells {cells : List (List Char)} (hraw : ∀ c ∈ raw, isLineBreak c = false)
    (h : splitTableRow raw = some cells) : ∀ c ∈ cells, IsCell c := by
  unfold splitTableRow at h
  dsimp only at h
  split_ifs at h
  obtain rfl := Option.some.inj h
  intro cell hcell
  obtain ⟨piece, hpiece, rfl⟩ := List.mem_map.mp hcell
  refine ⟨trimmed_strip fun c hc => ?_, fun hbar => ?_⟩
  · have hmem := mem_of_mem_splitOnP hpiece c hc
    exact hraw c (mem_of_mem_strip ((List.drop_suffix 1 _).subset ((List.dropLast_prefix _).subset hmem)))
  · have := sep_of_mem_splitOnP hpiece '|' (mem_of_mem_strip hbar)
    exact absurd this (by decide)

theorem tableRows_cells : ∀ {lines : List (List Char)} {rows : List WorkloadField},
    (∀ l ∈ lines, ∀ c ∈ l, isLineBreak c = false) → tableRows lines = .ok rows →
      ∀ f ∈ rows, ∀ c ∈ f.cells, IsCell c
  | [], _, _, h => by
      cases h
      exact List.forall_mem_nil _
  | raw :: lines, _, hlines, h => by
      obtain ⟨hraw, hlines⟩ := List.forall_mem_cons.mp hlines
      rw [tableRows] at h
      split at h
      · cases h
        exact List.forall_mem_nil _
      · rename_i hrow
        obtain ⟨rows, hrows, h⟩ := bind_eq_ok.mp h
        obtain rfl := Except.ok.inj h
        exact List.forall_mem_cons.mpr ⟨splitTableRow_cells hraw hrow, tableRows_cells hlines hrows⟩
      · cases h

theorem parseTable_cells {body : List Char} {fields : List WorkloadField}
    (h : parseTable body = .ok fields) :
    fields.length = TABLE_ROWS ∧ ∀ f ∈ fields, ∀ c ∈ f.cells, IsCell c := by
  unfold parseTable at h
  dsimp only at h
  split at h
  · cases h
  · cases h
  obtain ⟨rows, hrows, h⟩ := bind_eq_ok.mp h
  split_ifs at h with hcount
  obtain rfl := Except.ok.inj h
  exact ⟨not_not.mp hcount, tableRows_cells (fun l hl =>
    line_of_mem_splitlines ((List.drop_suffix _ _).subset hl)) hrows⟩

/-- A line has no line break at its end to leave out. -/
theorem matchesHex_trimmed {n : ℕ} {s : List Char} (h : Trimmed s) :
    matchesHex n s = true ↔ s.length = n ∧ ∀ c ∈ s, isLowerHex c = true := by
  have hchomp : chomp s = s := by
    refine if_neg fun hlast => ?_
    exact absurd (h.last _ hlast) (by decide)
  unfold matchesHex
  rw [hchomp, Bool.and_eq_true, beq_iff_eq, List.all_eq_true]

/-- **What is accepted is well formed.** -/
theorem wellFormed_of_load {word : WordClass} {text : List Char} {w : Workload}
    (h : loadWorkloadMd word text = .ok w) : w.WellFormed := by
  unfold loadWorkloadMd at h
  split_ifs at h
  obtain ⟨⟨frontmatter, body⟩, hsplit, h⟩ := bind_eq_ok.mp h
  obtain ⟨-, -, h⟩ := bind_eq_ok.mp h
  dsimp only at h
  split_ifs at h with hcommit
  obtain ⟨fields, hfields, h⟩ := bind_eq_ok.mp h
  obtain rfl := Except.ok.inj h
  have hentry := trimmed_lookup (splitFrontmatter_trimmed hsplit)
  obtain ⟨hrows, hcells⟩ := parseTable_cells hfields
  refine ⟨?_, (matchesHex_trimmed (hentry _)).mp (Bool.eq_true_of_not_eq_false hcommit), hrows, hcells⟩
  simp only [Workload.entries, List.forall_mem_cons]
  exact ⟨hentry _, hentry _, hentry _, hentry _, hentry _, List.forall_mem_nil _⟩

end Accepted

/-! ## 4. What is written is read back -/

def entryLine (e : List Char × List Char) : List Char := e.1 ++ ':' :: e.2

def rowLine (cells : List (List Char)) : List Char := '|' :: (['|'].intercalate cells ++ ['|'])

/-- The table, from its header on. -/
def tableLines (w : Workload) : List (List Char) :=
  "|Field|Source|Value|Notes|".toList :: "|---|---|---|---|".toList ::
    w.fields.map fun f => rowLine f.cells

/-- The shortest file of a workload. -/
def renderWorkload (w : Workload) : List Char :=
  unlines '\n' (FRONTMATTER_DELIM :: (w.entries.map entryLine ++ FRONTMATTER_DELIM :: tableLines w))

/-- A key of the block. -/
structure IsKey (k : List Char) : Prop where
  head : ∃ c u, k = c :: u ∧ isSpace c = false ∧ c ≠ '-'
  strip : strip k = k
  line : ∀ c ∈ k, isLineBreak c = false
  colon : ':' ∉ k

section Written

variable {k v : List Char} {w : Workload}

theorem isKey_of_mem (w : Workload) : ∀ e ∈ w.entries, IsKey e.1 := by
  simp only [Workload.entries, List.forall_mem_cons]
  refine ⟨⟨⟨'u', _, rfl, by decide, by decide⟩, by decide, line_of_all (by decide), by decide⟩,
    ⟨⟨'u', _, rfl, by decide, by decide⟩, by decide, line_of_all (by decide), by decide⟩,
    ⟨⟨'p', _, rfl, by decide, by decide⟩, by decide, line_of_all (by decide), by decide⟩,
    ⟨⟨'p', _, rfl, by decide, by decide⟩, by decide, line_of_all (by decide), by decide⟩,
    ⟨⟨'f', _, rfl, by decide, by decide⟩, by decide, line_of_all (by decide), by decide⟩, List.forall_mem_nil _⟩

theorem strip_entryLine (hk : IsKey k) (hv : Trimmed v) : strip (entryLine (k, v)) = entryLine (k, v) := by
  obtain ⟨c, u, rfl, hc, -⟩ := hk.head
  refine strip_eq_self (fun d hd => ?_) fun d hd => ?_
  · obtain rfl := Option.some.inj hd
    exact hc
  · cases v with
    | nil =>
      have hcolon : ((c :: u) ++ [':']).getLast? = some d := hd
      rw [List.getLast?_concat] at hcolon
      obtain rfl := Option.some.inj hcolon
      decide
    | cons a v =>
      rw [entryLine, List.getLast?_append_of_ne_nil _ (by simp), List.getLast?_cons_cons] at hd
      exact hv.last d hd

theorem isDelim_entryLine (hk : IsKey k) (hv : Trimmed v) : isDelim (entryLine (k, v)) = false := by
  unfold isDelim
  rw [strip_entryLine hk hv]
  obtain ⟨c, u, rfl, -, hc⟩ := hk.head
  refine decide_eq_false fun h => hc ?_
  exact (List.cons.inj h).1

theorem frontmatterLine_entryLine (hk : IsKey k) (hv : Trimmed v) (frontmatter : Frontmatter) :
    frontmatterLine frontmatter (entryLine (k, v)) = .ok ((k, v) :: frontmatter) := by
  have hne : entryLine (k, v) ≠ [] := by simp [entryLine]
  have hkey : ∀ c ∈ k, decide (c ≠ ':') = true := fun c hc =>
    decide_eq_true fun e => hk.colon (e ▸ hc)
  have htake : (entryLine (k, v)).takeWhile (· ≠ ':') = k := by
    rw [entryLine, List.takeWhile_append_of_pos hkey, List.takeWhile_cons_of_neg (by decide),
      List.append_nil]
  have hdrop : (entryLine (k, v)).dropWhile (· ≠ ':') = ':' :: v := by
    rw [entryLine, List.dropWhile_append_of_pos hkey, List.dropWhile_cons_of_neg (by decide)]
  unfold frontmatterLine
  dsimp only
  rw [strip_entryLine hk hv, if_neg hne, if_neg (not_not.mpr (by simp [entryLine])), htake, hdrop,
    hk.strip, List.drop_one, List.tail_cons, hv.strip]

theorem foldlM_entryLine : ∀ {es frontmatter : Frontmatter},
    (∀ e ∈ es, IsKey e.1 ∧ Trimmed e.2) →
      (es.map entryLine).foldlM frontmatterLine frontmatter = .ok (es.reverse ++ frontmatter)
  | [], _, _ => rfl
  | (k, v) :: es, frontmatter, h => by
      obtain ⟨⟨hk, hv⟩, hes⟩ := List.forall_mem_cons.mp h
      rw [List.map_cons, List.foldlM_cons, frontmatterLine_entryLine hk hv]
      refine (foldlM_entryLine hes).trans ?_
      rw [List.reverse_cons, List.append_assoc]
      rfl

theorem splitOn_intercalate : ∀ {cells : List (List Char)}, cells ≠ [] → (∀ c ∈ cells, '|' ∉ c) →
    (['|'].intercalate cells).splitOn '|' = cells
  | [], h, _ => absurd rfl h
  | [c], _, h => by
      rw [List.intercalate_singleton, List.splitOn_eq_splitOnP]
      exact List.splitOnP_eq_singleton fun d hd =>
        beq_false_of_ne fun e => List.forall_mem_singleton.mp h (e ▸ hd)
  | c :: c' :: cells, _, h => by
      obtain ⟨hc, hrest⟩ := List.forall_mem_cons.mp h
      have ih := splitOn_intercalate (List.cons_ne_nil c' cells) hrest
      have hbar : ∀ d ∈ c, (d == '|') = false := fun d hd => beq_false_of_ne fun e => hc (e ▸ hd)
      rw [List.splitOn_eq_splitOnP] at ih ⊢
      rw [List.intercalate_cons_cons, List.append_assoc, List.singleton_append,
        List.splitOnP_append_cons _ _ (by decide), List.splitOnP_eq_singleton hbar, ih]
      rfl

theorem splitTableRow_rowLine {cells : List (List Char)} (hne : cells ≠ [])
    (h : ∀ c ∈ cells, IsCell c) : splitTableRow (rowLine cells) = some cells := by
  have hlast : (rowLine cells).getLast? = some '|' := by
    rw [rowLine, ← List.cons_append, List.getLast?_concat]
  have hstrip : strip (rowLine cells) = rowLine cells := by
    refine strip_eq_self (fun c hc => ?_) fun c hc => ?_
    · obtain rfl := Option.some.inj hc
      decide
    · rw [hlast] at hc
      obtain rfl := Option.some.inj hc
      decide
  have hinner : ((rowLine cells).drop 1).dropLast = ['|'].intercalate cells := by
    rw [rowLine, List.drop_one, List.tail_cons, List.dropLast_concat]
  have hmap : cells.map strip = cells := by
    conv_rhs => rw [← List.map_id cells]
    exact List.map_congr_left fun c hc => (h c hc).1.strip
  unfold splitTableRow
  dsimp only
  rw [hstrip, hlast, hinner, if_neg (by simp [rowLine]), splitOn_intercalate hne fun c hc => (h c hc).2,
    hmap]

theorem tableRows_rowLine : ∀ {fields : List WorkloadField},
    (∀ f ∈ fields, ∀ c ∈ f.cells, IsCell c) →
      tableRows (fields.map fun f => rowLine f.cells) = .ok fields
  | [], _ => rfl
  | f :: fields, h => by
      obtain ⟨hf, hfields⟩ := List.forall_mem_cons.mp h
      have hrow : splitTableRow (rowLine f.cells) = some [f.name, f.source, f.value, f.notes] :=
        splitTableRow_rowLine (List.cons_ne_nil _ _) hf
      rw [List.map_cons, tableRows, hrow]
      exact bind_eq_ok.mpr ⟨_, tableRows_rowLine hfields, rfl⟩

theorem line_rowLine {cells : List (List Char)} (h : ∀ c ∈ cells, IsCell c) :
    ∀ d ∈ rowLine cells, isLineBreak d = false := by
  intro d hd
  rcases List.mem_cons.mp hd with rfl | hd
  · decide
  rcases List.mem_append.mp hd with hd | hd
  · rcases mem_intercalate hd with rfl | ⟨c, hc, hd⟩
    · decide
    · exact (h c hc).1.line d hd
  · rw [List.mem_singleton.mp hd]
    decide

theorem line_tableLines (h : w.WellFormed) : ∀ l ∈ tableLines w, ∀ c ∈ l, isLineBreak c = false := by
  refine List.forall_mem_cons.mpr ⟨line_of_all (by decide),
    List.forall_mem_cons.mpr ⟨line_of_all (by decide), fun l hl => ?_⟩⟩
  obtain ⟨f, hf, rfl⟩ := List.mem_map.mp hl
  exact line_rowLine (h.cells f hf)

theorem parseTable_tableLines (h : w.WellFormed) :
    parseTable (['\n'].intercalate (tableLines w)) = .ok w.fields := by
  have hne : ∀ l ∈ tableLines w, l ≠ [] := by
    refine List.forall_mem_cons.mpr ⟨by decide, List.forall_mem_cons.mpr ⟨by decide, fun l hl => ?_⟩⟩
    obtain ⟨f, -, rfl⟩ := List.mem_map.mp hl
    exact List.cons_ne_nil _ _
  have hfind : (tableLines w).findIdx? isTableDivider = some 1 := by
    rw [tableLines, List.findIdx?_cons, if_neg (by decide), List.findIdx?_cons, if_pos (by decide)]
    rfl
  unfold parseTable
  dsimp only
  rw [splitlines_intercalate (line_tableLines h) hne, hfind]
  refine bind_eq_ok.mpr ⟨_, tableRows_rowLine h.cells, ?_⟩
  exact if_neg (not_not.mpr h.rows)

theorem splitFrontmatter_render (h : w.WellFormed) : splitFrontmatter (renderWorkload w) =
    .ok (w.entries.reverse, ['\n'].intercalate (tableLines w)) := by
  have hentries : ∀ e ∈ w.entries, IsKey e.1 ∧ Trimmed e.2 := fun e he =>
    ⟨isKey_of_mem w e he, h.entries e he⟩
  have hdelim : ∀ l ∈ w.entries.map entryLine, (!isDelim l) = true := by
    intro l hl
    obtain ⟨e, he, rfl⟩ := List.mem_map.mp hl
    rw [isDelim_entryLine (hentries e he).1 (hentries e he).2]
    rfl
  have hlines : ∀ l ∈ FRONTMATTER_DELIM :: (w.entries.map entryLine ++
      FRONTMATTER_DELIM :: tableLines w), ∀ c ∈ l, isLineBreak c = false := by
    refine List.forall_mem_cons.mpr ⟨line_of_all (by decide), fun l hl => ?_⟩
    rcases List.mem_append.mp hl with hl | hl
    · obtain ⟨e, he, rfl⟩ := List.mem_map.mp hl
      intro c hc
      rcases List.mem_append.mp hc with hc | hc
      · exact (hentries e he).1.line c hc
      rcases List.mem_cons.mp hc with rfl | hc
      · decide
      · exact (hentries e he).2.line c hc
    · rcases List.mem_cons.mp hl with rfl | hl
      · exact line_of_all (by decide)
      · exact line_tableLines h l hl
  unfold splitFrontmatter renderWorkload
  rw [splitlines_unlines hlines]
  dsimp only
  rw [if_neg (by decide), List.dropWhile_append_of_pos hdelim, List.takeWhile_append_of_pos hdelim,
    List.dropWhile_cons_of_neg (by decide), List.takeWhile_cons_of_neg (by decide), List.append_nil]
  refine bind_eq_ok.mpr ⟨_, foldlM_entryLine hentries, ?_⟩
  rw [List.append_nil]
  rfl

/-- **A workload is read back from its file**, unless the file has a placeholder. -/
theorem load_render {word : WordClass} (h : w.WellFormed)
    (htbd : searchTbd word false (renderWorkload w) = false) :
    loadWorkloadMd word (renderWorkload w) = .ok w := by
  unfold loadWorkloadMd
  rw [if_neg (by rw [htbd]; decide)]
  refine bind_eq_ok.mpr ⟨_, splitFrontmatter_render h, ?_⟩
  dsimp only
  refine bind_eq_ok.mpr ⟨(), rfl, ?_⟩
  have hcommit : matchesHex 40 w.upstreamCommit = true :=
    (matchesHex_trimmed (h.entries ("upstream_commit".toList, w.upstreamCommit)
      (List.mem_cons_of_mem _ List.mem_cons_self))).mpr h.commit
  have hguard : ¬ matchesHex 40 w.upstreamCommit = false := by
    rw [hcommit]
    decide
  refine (if_neg hguard).trans ?_
  exact bind_eq_ok.mpr ⟨_, parseTable_tableLines h, rfl⟩

/-- **The parser of WORKLOAD.md is exact**: what it returns is well formed, whatever the text, and a
    well-formed workload is what it returns on its file, unless a placeholder stands in it. -/
theorem loadWorkloadMd_exact (word : WordClass) (w : Workload) :
    ((∃ text, loadWorkloadMd word text = .ok w) → w.WellFormed) ∧
      (searchTbd word false (renderWorkload w) = false →
        ((∃ text, loadWorkloadMd word text = .ok w) ↔ w.WellFormed) ∧
          (loadWorkloadMd word (renderWorkload w) = .ok w ↔ w.WellFormed)) := by
  have hread : (∃ text, loadWorkloadMd word text = .ok w) → w.WellFormed := by
    intro h
    obtain ⟨text, h⟩ := h
    exact wellFormed_of_load h
  exact ⟨hread, fun htbd => ⟨⟨hread, fun h => ⟨_, load_render h htbd⟩⟩, wellFormed_of_load, fun h =>
    load_render h htbd⟩⟩

end Written

/-- WORKLOAD.md without its notes. -/
def iadd64Workload : Workload where
  upstreamRepo := "https://github.com/tanujkhattar/zkp_ecc".toList
  upstreamCommit := "88e7cd5330bab9590df107b57bdce90672ff2b26".toList
  pinnedAt := "2026-06-11".toList
  pinnedBy := "grover-tax-v0.3-khattar".toList
  fixtureTargetVersion := "v0.3-iadd".toList
  fields := [
    ⟨"Canonical circuit `C`".toList, "`docs/example_data/iadd64.kmx`".toList,
      "`iadd64.kmx` (64-bit Cuccaro adder, `r0 += r1 mod 2⁶⁴`)".toList, []⟩,
    ⟨"Gate count of `C` per repetition".toList, "derived histogram of `iadd64.kmx`".toList,
      "627".toList, []⟩,
    ⟨"Non-Clifford (`CCX`/TOFFOLI) count per repetition".toList,
      "derived histogram of `iadd64.kmx`".toList, "125".toList, []⟩,
    ⟨"Register width `W`".toList, "`iadd64.kmx` `APPEND_TO_REGISTER` layout".toList, "64".toList, []⟩,
    ⟨"Circuit-commitment scheme".toList, "`program/src/main.rs`".toList,
      "SHA-256 over the **raw `.kmx` bytes**".toList, []⟩,
    ⟨"Test-case entropy source".toList, "`docs/getting_started.md`".toList,
      "Tier-1: **supplied** (deterministic XOF)".toList, []⟩]

/-- The words of ASCII alone. -/
def asciiLetters : WordClass where
  isWord c := c == '_' || c.isAlphanum
  ascii _ _ := Bool.or_comm _ _
  space _ hc := (Bool.or_comm _ _).trans (notWord_of_isSpace hc)

theorem loadWorkloadMd_exact_iadd64 :
    ((∃ text, loadWorkloadMd asciiLetters text = .ok iadd64Workload) ↔ iadd64Workload.WellFormed) ∧
      (loadWorkloadMd asciiLetters (renderWorkload iadd64Workload) = .ok iadd64Workload ↔
        iadd64Workload.WellFormed) :=
  (loadWorkloadMd_exact asciiLetters iadd64Workload).2 (by decide +kernel)

end GroverTax.Python
