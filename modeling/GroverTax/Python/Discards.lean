/-
  File:      GroverTax/Python/Discards.lean
  Subject:   The discard log: `append_discard` of src/python/grover_tax/discards.py and
             `_load_discards` of src/python/grover_tax/analyze.py.

  A file is its decoded text, `none` when there is no file. The arguments are texts without
  surrogates: UTF-8 has none, and the writer raises on them before it writes. The clock is an
  argument.

  * `keptLines_log` -- the lines the reader keeps, record by record;
  * `loadDiscards_eq_iff` -- **the log is read back exactly when no field has one of the three line
    breaks JSON leaves alone**: U+0085, U+2028 and U+2029.
-/
import GroverTax.Python.Json
import GroverTax.Lib.Run

namespace GroverTax.Python

open GroverTax.Lib

/-! ## 1. The writer -/

inductive DiscardReason where
  | thermal | gpuResidency | swapActive | coldCache | envVarMiss | other
  deriving DecidableEq, Repr

def DiscardReason.value : DiscardReason → List Char
  | .thermal => "thermal".toList
  | .gpuResidency => "gpu_residency".toList
  | .swapActive => "swap_active".toList
  | .coldCache => "cold_cache".toList
  | .envVarMiss => "env_var_miss".toList
  | .other => "other".toList

/-- `_VALID_REASONS`. -/
def VALID_REASONS : List (List Char) :=
  [DiscardReason.thermal, .gpuResidency, .swapActive, .coldCache, .envVarMiss, .other].map
    DiscardReason.value

def PROVERS : List (List Char) := ["sp1".toList, "stwo".toList]

/-- The argument `reason: str | DiscardReason`. -/
inductive ReasonArg where
  | enum (r : DiscardReason)
  | text (s : List Char)
  deriving DecidableEq, Repr

def ReasonArg.str : ReasonArg → List Char
  | .enum r => r.value
  | .text s => s

/-- The arguments of `append_discard`. -/
structure Discard where
  runId : List Char
  prover : List Char
  reason : ReasonArg
  detail : List Char
  measurementArtifact : List Char
  deriving DecidableEq, Repr

/-- `datetime.now(UTC)`. -/
structure Instant where
  year : ℕ
  month : ℕ
  day : ℕ
  hour : ℕ
  minute : ℕ
  second : ℕ
  deriving DecidableEq, Repr

/-- Two decimal digits. -/
def twoDigits (n : ℕ) : List Char := [Nat.digitChar (n / 10 % 10), Nat.digitChar (n % 10)]

/-- `strftime("%Y-%m-%dT%H:%M:%SZ")`. -/
def strftime (t : Instant) : List Char :=
  Nat.toDigits 10 t.year ++ '-' :: twoDigits t.month ++ '-' :: twoDigits t.day ++
    'T' :: twoDigits t.hour ++ ':' :: twoDigits t.minute ++ ':' :: twoDigits t.second ++ ['Z']

/-- The dict `record`. -/
def discardRecord (now : Instant) (d : Discard) : List (List Char × List Char) :=
  [("ts".toList, strftime now),
    ("run_id".toList, d.runId),
    ("prover".toList, d.prover),
    ("reason".toList, d.reason.str),
    ("detail".toList, d.detail),
    ("measurement_artifact".toList, d.measurementArtifact)]

/-- The texts of the ValueError. -/
inductive DiscardError where
  /-- append_discard: reason {reason_str!r} not in {sorted(_VALID_REASONS)} -/
  | reason (reason : List Char)
  /-- append_discard: prover must be 'sp1' or 'stwo', got {prover!r} -/
  | prover (prover : List Char)
  deriving DecidableEq, Repr

/-- `append_discard`: the log behind the call. -/
def appendDiscard (now : Instant) (d : Discard) (log : Option (List Char)) :
    Except DiscardError (List Char) :=
  if d.reason.str ∉ VALID_REASONS then .error (.reason d.reason.str)
  else if d.prover ∉ PROVERS then .error (.prover d.prover)
  else .ok (log.getD [] ++ (dumps (discardRecord now d) ++ ['\n']))

/-- A sequence of calls on one log. -/
def appendDiscards : List (Instant × Discard) → Option (List Char) →
    Except DiscardError (Option (List Char))
  | [], log => .ok log
  | (now, d) :: calls, log => do appendDiscards calls (some (← appendDiscard now d log))

/-! ## 2. The reader -/

/-- The lines with something on them. -/
def keptLines (text : List Char) : List (List Char) :=
  (splitlines text).filter fun line => !(strip line).isEmpty

/-- `_load_discards`; `none` is a JSONDecodeError or a ValueError of `json.loads`. -/
def loadDiscards : Option (List Char) → Option (List Json)
  | none => some []
  | some text => (keptLines (universalNewlines text)).mapM loads

/-! ## 3. Which characters tear a line -/

/-- A line break of `str.splitlines` that JSON does not escape. -/
def tears (c : Char) : Bool := c.toNat = 0x85 ∨ c.toNat = 0x2028 ∨ c.toNat = 0x2029

/-- No line break. -/
def Flat (s : List Char) : Prop := ∀ c ∈ s, isLineBreak c = false

/-- The condition on the arguments of a call: no field can tear its line. -/
def Untorn (d : Discard) : Prop :=
  ∀ c ∈ d.runId ++ d.detail ++ d.measurementArtifact, tears c = false

section Tears

variable {c : Char} {s t : List Char}

theorem forall_of_any {p : Char → Bool} (h : s.any p = false) : ∀ c ∈ s, p c = false :=
  fun c hc => Bool.eq_false_iff.mpr (List.any_eq_false.mp h c hc)

theorem flat_cons : Flat (c :: s) ↔ isLineBreak c = false ∧ Flat s := List.forall_mem_cons

theorem isLineBreak_of_tears (h : tears c = true) : isLineBreak c = true := by
  simp only [tears, decide_eq_true_eq] at h
  simp only [isLineBreak, Bool.or_eq_true, Bool.and_eq_true, decide_eq_true_eq, beq_iff_eq]
  omega

theorem isLineBreak_of_le (h : 0x20 ≤ c.toNat) (ht : tears c = false) : isLineBreak c = false := by
  simp only [tears, decide_eq_false_iff_not] at ht
  rw [← Bool.not_eq_true]
  simp only [isLineBreak, Bool.or_eq_true, Bool.and_eq_true, decide_eq_true_eq, beq_iff_eq]
  omega

theorem escapeChar_of_tears (h : tears c = true) : escapeChar c = [c] := by
  have hne : ∀ d : Char, d.toNat < 0x80 → c ≠ d := by
    rintro d hd rfl
    simp only [tears, decide_eq_true_eq] at h
    omega
  have hge : ¬ c.toNat < 0x20 := by
    simp only [tears, decide_eq_true_eq] at h
    omega
  rw [escapeChar, if_neg (hne _ (by decide)), if_neg (hne _ (by decide)),
    if_neg (hne _ (by decide)), if_neg (hne _ (by decide)), if_neg (hne _ (by decide)),
    if_neg (hne _ (by decide)), if_neg (hne _ (by decide)), if_neg hge]

/-- The control characters among the line breaks are escaped. -/
theorem flat_escapeChar (h : tears c = false) : Flat (escapeChar c) := by
  have hex : ∀ n < 0x20, Flat ('\\' :: 'u' :: hex4 n) := by
    have hany : ∀ n < 0x20, ('\\' :: 'u' :: hex4 n).any isLineBreak = false := by decide
    exact fun n hn => forall_of_any (hany n hn)
  unfold escapeChar
  split_ifs with h1 h2 h3 h4 h5 h6 h7 h8
  all_goals try exact forall_of_any (by decide)
  · exact hex _ h8
  · exact flat_cons.mpr ⟨isLineBreak_of_le (Nat.le_of_not_lt h8) h, List.forall_mem_nil _⟩

/-- A line break in what is written is one of the three, and stood in the string. -/
theorem break_of_mem_encodeString {x : Char} (hb : isLineBreak x = true)
    (hx : x ∈ encodeString s) : x ∈ s ∧ tears x = true := by
  rw [encodeString, List.mem_cons, List.mem_append] at hx
  rcases hx with rfl | hx | hx
  · cases hb
  · obtain ⟨c, hc, hxc⟩ := List.mem_flatMap.mp hx
    by_cases ht : tears c = true
    · rw [escapeChar_of_tears ht, List.mem_singleton] at hxc
      exact hxc ▸ ⟨hc, ht⟩
    · have hflat := flat_escapeChar (show tears c = false by simpa using ht) x hxc
      rw [hb] at hflat
      cases hflat
  · rw [List.mem_singleton.mp hx] at hb
    cases hb

section Dumps

variable {members : List (List Char × List Char)} {x : Char}

theorem break_of_mem_dumpMembers (hb : isLineBreak x = true) :
    ∀ {members : List (List Char × List Char)}, x ∈ dumpMembers members →
      (∃ m ∈ members, x ∈ m.1 ∨ x ∈ m.2) ∧ tears x = true
  | [], h => absurd h List.not_mem_nil
  | m :: members, h => by
      have hmember : x ∈ encodeString m.1 ++ ':' :: encodeString m.2 →
          (x ∈ m.1 ∨ x ∈ m.2) ∧ tears x = true := by
        intro h
        rw [List.mem_append, List.mem_cons] at h
        rcases h with h | rfl | h
        · exact (break_of_mem_encodeString hb h).imp_left Or.inl
        · cases hb
        · exact (break_of_mem_encodeString hb h).imp_left Or.inr
      by_cases hne : members = []
      · rw [hne] at h ⊢
        exact (hmember h).imp_left fun hm => ⟨m, List.mem_cons_self, hm⟩
      · rw [dumpMembers_cons hne, ← List.cons_append, ← List.append_assoc, List.mem_append,
          List.mem_cons] at h
        rcases h with h | rfl | h
        · exact (hmember h).imp_left fun hm => ⟨m, List.mem_cons_self, hm⟩
        · cases hb
        · exact (break_of_mem_dumpMembers hb h).imp_left fun ⟨m', hm', he⟩ =>
            ⟨m', List.mem_cons_of_mem _ hm', he⟩

theorem break_of_mem_dumps (hb : isLineBreak x = true) (hx : x ∈ dumps members) :
    (∃ m ∈ members, x ∈ m.1 ∨ x ∈ m.2) ∧ tears x = true := by
  rw [dumps, List.mem_cons, List.mem_append] at hx
  rcases hx with rfl | hx | hx
  · cases hb
  · exact break_of_mem_dumpMembers hb hx
  · rw [List.mem_singleton.mp hx] at hb
    cases hb

/-- No character of a member tears. -/
def Sound (m : List Char × List Char) : Prop :=
  (∀ c ∈ m.1, tears c = false) ∧ ∀ c ∈ m.2, tears c = false

theorem flat_dumps (h : ∀ m ∈ members, Sound m) : Flat (dumps members) := by
  intro x hx
  by_contra hb
  obtain ⟨⟨m, hm, hxm⟩, ht⟩ := break_of_mem_dumps (by simpa using hb) hx
  have hsound : tears x = false := hxm.elim ((h m hm).1 x) ((h m hm).2 x)
  rw [hsound] at ht
  cases ht

/-! ## 4. The lines of a record -/

/-- The lines the reader keeps of a record. -/
def pieces (members : List (List Char × List Char)) : List (List Char) :=
  ((dumps members).splitOnP isLineBreak).filter fun line => !(strip line).isEmpty

/-- A line that begins with a brace is kept. -/
theorem strip_brace (s : List Char) : (strip ('{' :: s)).isEmpty = false := by
  rw [← Bool.not_eq_true, List.isEmpty_iff, strip, trim_eq_nil]
  intro h
  have := h '{' List.mem_cons_self
  exact absurd this (by decide)

/-- A record without a tear is one line. -/
theorem pieces_of_sound (h : ∀ m ∈ members, Sound m) : pieces members = [dumps members] := by
  rw [pieces, List.splitOnP_eq_singleton (flat_dumps h), List.filter_cons_of_pos, List.filter_nil]
  rw [dumps, strip_brace]
  rfl

/-- The text of a record with a tear, which stands for itself. -/
theorem dumps_torn (front post : List (List Char × List Char)) (key w t : List Char) {c : Char}
    (hc : tears c = true) : ∃ rest, dumps (front ++ (key, w ++ c :: t) :: post) =
      ('{' :: tornMembers front key w) ++ c :: rest := by
  have hstr : encodeString (w ++ c :: t) = '"' :: (escapeStr w ++ c :: (escapeStr t ++ ['"'])) := by
    simp [encodeString, escapeStr, escapeChar_of_tears hc]
  rw [dumps, dumpMembers_append front (List.cons_ne_nil _ _)]
  by_cases hpost : post = []
  · rw [hpost, dumpMembers, hstr]
    exact ⟨escapeStr t ++ ['"', '}'], by simp [tornMembers]⟩
  · rw [dumpMembers_cons hpost, hstr]
    exact ⟨escapeStr t ++ '"' :: ',' :: (dumpMembers post ++ ['}']), by simp [tornMembers]⟩

/-- **A record with a tear has a line that is refused**: the part up to the first tear, which ends
    inside a value. -/
theorem exists_refused_piece (hkeys : ∀ m ∈ members, ∀ c ∈ m.1, tears c = false)
    (h : ∃ m ∈ members, ∃ c ∈ m.2, tears c = true) :
    ∃ line ∈ pieces members, loads line = none := by
  obtain hall | ⟨front, m, post, rfl, hfront, hm⟩ :=
    exists_first_sep (fun m : List Char × List Char => m.2.any tears) members
  · obtain ⟨m, hm, c, hc, ht⟩ := h
    have := List.any_eq_false.mp (hall m hm) c hc
    exact absurd ht this
  obtain ⟨key, v⟩ := m
  obtain hall | ⟨w, c, t, rfl, hw, hc⟩ := exists_first_sep tears v
  · obtain ⟨c, hcv, ht⟩ := List.any_eq_true.mp hm
    rw [hall c hcv] at ht
    cases ht
  -- the text of the record: flat up to the tear, which stands for itself
  obtain ⟨rest, htext⟩ := dumps_torn front post key w t hc
  have hflat : Flat ('{' :: tornMembers front key w) := by
    have hsound : ∀ m ∈ front ++ [(key, w)], Sound m := by
      rw [List.forall_mem_append, List.forall_mem_singleton]
      refine ⟨fun m hm => ⟨hkeys m (List.mem_append_left _ hm), fun c hc => ?_⟩,
        hkeys (key, w ++ c :: t) (List.mem_append_right _ List.mem_cons_self), hw⟩
      simpa using List.any_eq_false.mp (hfront m hm) c hc
    have := flat_dumps hsound
    rw [dumps, dumpMembers_append front (List.cons_ne_nil _ _)] at this
    intro x hx
    refine this x ?_
    have e : '{' :: (dumpFront front ++ dumpMembers [(key, w)] ++ ['}']) =
        ('{' :: tornMembers front key w) ++ ['"', '}'] := by
      simp [tornMembers, dumpMembers, encodeString]
    rw [e]
    exact List.mem_append_left _ hx
  refine ⟨'{' :: tornMembers front key w, ?_, loads_torn front key w⟩
  rw [pieces, htext, List.splitOnP_append_cons _ _ (isLineBreak_of_tears hc),
    List.splitOnP_eq_singleton hflat]
  exact List.mem_filter.mpr ⟨List.mem_cons_self, by rw [strip_brace]; rfl⟩

end Dumps

end Tears

/-! ## 5. The round trip -/

section Log

variable {calls : List (Instant × Discard)} {log : Option (List Char)} {now : Instant} {d : Discard}

/-- What the writer takes. -/
def Accepts (d : Discard) : Prop := d.reason.str ∈ VALID_REASONS ∧ d.prover ∈ PROVERS

/-- The line of a call. -/
def logLine (c : Instant × Discard) : List Char := dumps (discardRecord c.1 c.2) ++ ['\n']

theorem appendDiscard_eq_ok {log' : List Char} : appendDiscard now d log = .ok log' ↔
    Accepts d ∧ log' = log.getD [] ++ logLine (now, d) := by
  unfold appendDiscard Accepts
  split_ifs with h1 h2
  · rw [and_iff_right ⟨h1, h2⟩, Except.ok.injEq, eq_comm]
    rfl
  · exact iff_of_false (fun h => by cases h) fun h => h2 h.1.2
  · exact iff_of_false (fun h => by cases h) fun h => h1 h.1.1

/-- **The log behind the calls**: one line each, in order. -/
theorem appendDiscards_eq_ok : ∀ {calls : List (Instant × Discard)} {log log' : Option (List Char)},
    appendDiscards calls log = .ok log' →
      (∀ c ∈ calls, Accepts c.2) ∧ log'.getD [] = log.getD [] ++ calls.flatMap logLine
  | [], log, log', h => by
      cases h
      exact ⟨List.forall_mem_nil _, (List.append_nil _).symm⟩
  | (now, d) :: calls, log, log', h => by
      obtain ⟨log1, h1, h⟩ := bind_eq_ok.mp h
      obtain ⟨ha, rfl⟩ := appendDiscard_eq_ok.mp h1
      obtain ⟨hall, e⟩ := appendDiscards_eq_ok h
      refine ⟨List.forall_mem_cons.mpr ⟨ha, hall⟩, ?_⟩
      rw [e, Option.getD_some, List.append_assoc, List.flatMap_cons]

theorem universalNewlines_eq : ∀ {s : List Char}, '\r' ∉ s → universalNewlines s = s
  | [], _ => rfl
  | c :: s, h => by
      rw [List.mem_cons, not_or] at h
      rw [universalNewlines.eq_3 c s (fun _ e _ => h.1 e.symm), if_neg (Ne.symm h.1),
        universalNewlines_eq h.2]

/-- The lines kept are those of the pieces between line breaks. -/
theorem keptLines_eq (text : List Char) : keptLines text =
    (text.splitOnP isLineBreak).filter fun line => !(strip line).isEmpty := by
  have e : ∀ l : List (List Char), (l.filter fun line => !(strip line).isEmpty) =
      l.flatMap fun line => if (strip line).isEmpty then [] else [line] := by
    intro l
    induction l with
    | nil => rfl
    | cons line l ih =>
      rw [List.flatMap_cons, ← ih, List.filter_cons]
      cases (strip line).isEmpty <;> rfl
  rw [keptLines, e, e]
  exact splitlines_flatMap rfl text

/-- **The lines kept of a log, record by record.** -/
theorem keptLines_log : ∀ calls : List (Instant × Discard), keptLines (calls.flatMap logLine) =
    calls.flatMap fun c => pieces (discardRecord c.1 c.2)
  | [] => rfl
  | c :: calls => by
      rw [List.flatMap_cons, List.flatMap_cons, ← keptLines_log calls, keptLines_eq, keptLines_eq,
        logLine, List.append_assoc, List.singleton_append,
        List.splitOnP_append_cons _ _ (by decide), List.filter_append]
      rfl

theorem loadDiscards_log (h : log.getD [] = calls.flatMap logLine) :
    loadDiscards log = (calls.flatMap fun c => pieces (discardRecord c.1 c.2)).mapM loads := by
  have hcr : '\r' ∉ calls.flatMap logLine := by
    rw [List.mem_flatMap]
    intro h'
    obtain ⟨c, -, hc⟩ := h'
    rw [logLine, List.mem_append] at hc
    rcases hc with hc | hc
    · have := (break_of_mem_dumps (by decide) hc).2
      cases this
    · simp at hc
  cases log with
  | none =>
    rw [← keptLines_log, ← h]
    rfl
  | some text =>
    rw [Option.getD_some] at h
    rw [loadDiscards, h, universalNewlines_eq hcr, keptLines_log]

/-- The record as it is read. -/
def discardJson (c : Instant × Discard) : Json := readDict (discardRecord c.1 c.2)

theorem tears_digitChar {n : ℕ} (h : n < 10) : tears (Nat.digitChar n) = false := by
  interval_cases n <;> rfl

theorem tears_strftime (t : Instant) : ∀ c ∈ strftime t, tears c = false := by
  have htwo : ∀ n, ∀ c ∈ twoDigits n, tears c = false := by
    intro n
    rw [twoDigits, List.forall_mem_cons, List.forall_mem_singleton]
    exact ⟨tears_digitChar (Nat.mod_lt _ (by decide)), tears_digitChar (Nat.mod_lt _ (by decide))⟩
  have hyear : ∀ c ∈ Nat.toDigits 10 t.year, tears c = false := by
    intro c hc
    have := Nat.isDigit_of_mem_toDigits (by decide) (by decide) hc
    simp only [Char.isDigit, Bool.and_eq_true, decide_eq_true_eq] at this
    have hle : c.toNat ≤ 57 := this.2
    simp only [tears, decide_eq_false_iff_not]
    omega
  have hpart : ∀ (c : Char) (n : ℕ), tears c = false → ∀ x ∈ c :: twoDigits n, tears x = false :=
    fun c n h => List.forall_mem_cons.mpr ⟨h, htwo n⟩
  unfold strftime
  simp only [List.forall_mem_append]
  exact ⟨⟨⟨⟨⟨⟨hyear, hpart '-' _ rfl⟩, hpart '-' _ rfl⟩, hpart 'T' _ rfl⟩, hpart ':' _ rfl⟩,
    hpart ':' _ rfl⟩, forall_of_any (by decide)⟩

theorem tears_key : ∀ m ∈ discardRecord now d, ∀ c ∈ m.1, tears c = false := by
  simp only [discardRecord, List.forall_mem_cons]
  exact ⟨forall_of_any (by decide), forall_of_any (by decide), forall_of_any (by decide),
    forall_of_any (by decide), forall_of_any (by decide), forall_of_any (by decide),
    List.forall_mem_nil _⟩

/-- The strings of an accepted record: only the free texts can tear. -/
theorem sound_discardRecord (h : Accepts d) :
    (∀ m ∈ discardRecord now d, Sound m) ↔ Untorn d := by
  have hreason : ∀ c ∈ d.reason.str, tears c = false :=
    forall_of_any ((by decide : ∀ r ∈ VALID_REASONS, r.any tears = false) _ h.1)
  have hprover : ∀ c ∈ d.prover, tears c = false :=
    forall_of_any ((by decide : ∀ p ∈ PROVERS, p.any tears = false) _ h.2)
  have hval : (∀ m ∈ discardRecord now d, Sound m) ↔
      ∀ m ∈ discardRecord now d, ∀ c ∈ m.2, tears c = false :=
    forall₂_congr fun m hm => and_iff_right (tears_key m hm)
  rw [hval, Untorn]
  simp only [discardRecord, List.forall_mem_cons, List.forall_mem_append]
  constructor
  · intro h'
    obtain ⟨-, hrun, -, -, hdetail, hartifact, -⟩ := h'
    exact ⟨⟨hrun, hdetail⟩, hartifact⟩
  · intro h'
    obtain ⟨⟨hrun, hdetail⟩, hartifact⟩ := h'
    exact ⟨tears_strftime now, hrun, hprover, hreason, hdetail, hartifact, List.forall_mem_nil _⟩

theorem discardRecord_ne_nil (now : Instant) (d : Discard) : discardRecord now d ≠ [] :=
  List.cons_ne_nil _ _

/-- A log with a torn record is not read at all. -/
theorem loadDiscards_torn (h : appendDiscards calls none = .ok log) {c : Instant × Discard}
    (hc : c ∈ calls) (hn : ¬ Untorn c.2) : loadDiscards log = none := by
  obtain ⟨hacc, hlog⟩ := appendDiscards_eq_ok h
  rw [← @sound_discardRecord c.1 c.2 (hacc c hc)] at hn
  have htorn : ∃ m ∈ discardRecord c.1 c.2, ∃ x ∈ m.2, tears x = true := by
    by_contra hno
    refine hn fun m hm => ⟨tears_key m hm, fun x hx => ?_⟩
    by_contra ht
    exact hno ⟨m, hm, x, hx, by simpa using ht⟩
  obtain ⟨line, hline, hnone⟩ := exists_refused_piece tears_key htorn
  rw [loadDiscards_log hlog]
  cases hload : (calls.flatMap fun c => pieces (discardRecord c.1 c.2)).mapM loads with
  | none => rfl
  | some js =>
    obtain ⟨j, -, hj⟩ := exists_image_of_mapM hload line (List.mem_flatMap.mpr ⟨c, hc, hline⟩)
    rw [hnone] at hj
    cases hj

/-- **The log is read back exactly when no field can tear its line.** -/
theorem loadDiscards_eq_iff (h : appendDiscards calls none = .ok log) :
    loadDiscards log = some (calls.map discardJson) ↔ ∀ c ∈ calls, Untorn c.2 := by
  obtain ⟨hacc, hlog⟩ := appendDiscards_eq_ok h
  constructor
  · intro hload c hc
    by_contra hn
    rw [loadDiscards_torn h hc hn] at hload
    cases hload
  · intro hall
    have hpieces : (calls.flatMap fun c => pieces (discardRecord c.1 c.2)) =
        calls.map fun c => dumps (discardRecord c.1 c.2) := by
      rw [List.map_eq_flatMap]
      exact List.flatMap_congr fun c hc =>
        pieces_of_sound ((sound_discardRecord (hacc c hc)).mpr (hall c hc))
    rw [loadDiscards_log hlog, hpieces, List.mapM_map]
    exact mapM_eq_map fun c _ => loads_dumps (discardRecord_ne_nil c.1 c.2)

/-- A call with the given detail. -/
def sampleCall (detail : List Char) : Instant × Discard :=
  (⟨2026, 5, 14, 11, 37, 25⟩,
    ⟨['r', '1'], "sp1".toList, .enum .thermal, detail, "r1.timing.json".toList⟩)

/-- Two calls, in order. -/
def sampleCalls : List (Instant × Discard) := [sampleCall "97 C".toList, sampleCall "99 C".toList]

theorem loadDiscards_eq_iff_sample : ∃ log, appendDiscards sampleCalls none = .ok log ∧
    (loadDiscards log = some (sampleCalls.map discardJson) ↔ ∀ c ∈ sampleCalls, Untorn c.2) :=
  ⟨_, rfl, loadDiscards_eq_iff rfl⟩

/-- A line separator in the detail: the writer takes it, the reader raises. -/
theorem line_separator_tears : ∃ log, appendDiscards [sampleCall ['\u2028']] none = .ok log ∧
    loadDiscards log ≠ some ([sampleCall ['\u2028']].map discardJson) := by
  have hn : ¬ Untorn (sampleCall ['\u2028']).2 := fun h =>
    absurd (h '\u2028' (by decide)) (by decide)
  have hmem : sampleCall ['\u2028'] ∈ [sampleCall ['\u2028']] := List.mem_cons_self
  refine ⟨_, rfl, fun h => ?_⟩
  rw [loadDiscards_torn rfl hmem hn] at h
  cases h

end Log

end GroverTax.Python
