/-
  File:      GroverTax/Kickmix/Cli.lean
  Subject:   The test cases and the exit code of `kmx fuzz`, src/kickmix/src/bin/kmx.rs.

  The arguments of the command line are given as values; the file of the circuit may be missing.
  * `parseCases`, `caseStr` -- a case as a line `a b -> c d`;
  * **`parseCases_image`** -- **the reader returns a list of cases exactly when their numbers are
    `u128` values, and the lines that the command prints give it back**;
  * **`cmdFuzz_exit`** -- **when the command succeeds.**
-/
import GroverTax.Kickmix.FuzzRun
import GroverTax.Kickmix.Render

namespace GroverTax.Kickmix

open GroverTax.Lib

/-! ## 1. The text of the cases -/

/-- `str::parse::<u128>`. -/
def parseU128 (s : List Char) : Option ℕ := parseUnsigned (2 ^ 128) s

inductive CaseError where
  /-- {line:?}: missing `->` -/
  | missingArrow (line : List Char)
  /-- {t:?}: not an integer -/
  | notInteger (t : List Char)
  deriving DecidableEq, Repr

def parseInts (s : List Char) : Except CaseError (List ℕ) :=
  (splitWhitespace s).mapM fun t =>
    match parseU128 t with
    | some v => .ok v
    | none => .error (.notInteger t)

/-- `line.split_once("->")`. -/
def splitArrow : List Char → Option (List Char × List Char)
  | [] => none
  | '-' :: '>' :: rest => some ([], rest)
  | c :: rest => (splitArrow rest).map fun p => (c :: p.1, p.2)

/-- One turn of the loop of `parse_cases`. -/
def parseCaseLine (raw : List Char) : Except CaseError (Option FuzzCase) :=
  let line := trim isWhitespace raw
  if line = [] ∨ line.head? = some '#' then .ok none
  else
    match splitArrow line with
    | none => .error (.missingArrow line)
    | some (lhs, rhs) => do
        let inputs ← parseInts lhs
        let outputs ← parseInts rhs
        return some ⟨inputs, outputs⟩

def parseCases (input : List Char) : Except CaseError (List FuzzCase) := do
  let cases ← (lines input).mapM parseCaseLine
  return cases.reduceOption

def caseStr (case : FuzzCase) : List Char :=
  [' '].intercalate (case.inputs.map numeral) ++ " -> ".toList ++
    [' '].intercalate (case.outputs.map numeral)

/-! ## 2. Reading a line back -/

/-- The numbers of a case are `u128` values. -/
def FuzzCase.Fits (case : FuzzCase) : Prop := ∀ v ∈ case.inputs ++ case.outputs, v < 2 ^ 128

section Lines

variable {case : FuzzCase} {s t : List Char} {vs : List ℕ}

theorem lt_of_parseU128 {v : ℕ} (h : parseU128 s = some v) : v < 2 ^ 128 := by
  obtain ⟨ds, -, -, hlt, rfl⟩ := parseUnsigned_eq_some.mp h
  exact hlt

theorem isWhitespace_of_mem_numeral {v : ℕ} {c : Char} (h : c ∈ numeral v) :
    isWhitespace c = false := by
  have hd := isAsciiDigit_iff.mp ((digits_numeral v).2 c h)
  exact isWhitespace_eq_false ⟨by omega, by omega⟩

/-- The numbers of one side are read back from their words. -/
theorem parseInts_of_tokens (h : tokens isWhitespace s = vs.map numeral)
    (hv : ∀ v ∈ vs, v < 2 ^ 128) : parseInts s = .ok vs := by
  rw [parseInts, splitWhitespace, h]
  clear h
  induction vs with
  | nil => rfl
  | cons v vs ih =>
    rw [List.forall_mem_cons] at hv
    rw [List.map_cons, List.mapM_cons,
      show parseU128 (numeral v) = some v from parseUnsigned_numeral hv.1, ih hv.2]
    rfl

theorem tokens_numerals (vs : List ℕ) :
    tokens isWhitespace ([' '].intercalate (vs.map numeral)) = vs.map numeral := by
  refine tokens_intercalate (by decide) fun w hw => ?_
  obtain ⟨v, -, rfl⟩ := List.mem_map.mp hw
  exact ⟨(digits_numeral v).1, fun c hc => isWhitespace_of_mem_numeral hc⟩

theorem mem_numerals {c : Char} (h : c ∈ [' '].intercalate (vs.map numeral)) :
    c = ' ' ∨ 48 ≤ c.toNat ∧ c.toNat ≤ 57 := by
  rcases mem_intercalate h with rfl | ⟨w, hw, hc⟩
  · exact Or.inl rfl
  · obtain ⟨v, -, rfl⟩ := List.mem_map.mp hw
    exact Or.inr (isAsciiDigit_iff.mp ((digits_numeral v).2 c hc))

/-- The first arrow splits. -/
theorem splitArrow_append (h : '-' ∉ s) (t : List Char) :
    splitArrow (s ++ '-' :: '>' :: t) = some (s, t) := by
  induction s with
  | nil => rfl
  | cons c s ih =>
    rw [List.mem_cons, not_or] at h
    have hstep : splitArrow (c :: (s ++ '-' :: '>' :: t)) =
        (splitArrow (s ++ '-' :: '>' :: t)).map fun p => (c :: p.1, p.2) := by
      rw [splitArrow.eq_3]
      rintro rest rfl
      exact absurd rfl h.1
    rw [List.cons_append, hstep, ih h.2]
    rfl

theorem dropWhile_append_of_not {c : Char} (h : isWhitespace c = false) (s t : List Char) :
    (s ++ c :: t).dropWhile isWhitespace = s.dropWhile isWhitespace ++ c :: t := by
  rw [List.dropWhile_append]
  split_ifs with he
  · rw [List.isEmpty_iff.mp he, List.dropWhile_cons_of_neg (by rw [h]; exact Bool.false_ne_true)]
    rfl
  · rfl

/-- Blanks are lost before and after an arrow only. -/
theorem trim_arrow (s t : List Char) : trim isWhitespace (s ++ '-' :: '>' :: t) =
    s.dropWhile isWhitespace ++ '-' :: '>' :: t.rdropWhile isWhitespace := by
  have hback : ∀ u : List Char, (u ++ '>' :: t).rdropWhile isWhitespace =
      u ++ '>' :: t.rdropWhile isWhitespace := by
    intro u
    have h := dropWhile_append_of_not (c := '>') (by decide) t.reverse u.reverse
    rw [List.rdropWhile, List.rdropWhile, List.reverse_append, List.reverse_cons,
      List.append_assoc, List.singleton_append, h, List.reverse_append, List.reverse_cons,
      List.reverse_reverse, List.append_assoc, List.singleton_append]
  rw [trim, dropWhile_append_of_not (by decide)]
  have h := hback (s.dropWhile isWhitespace ++ ['-'])
  rwa [List.append_assoc, List.singleton_append, List.append_assoc, List.singleton_append] at h

theorem caseStr_eq (case : FuzzCase) : caseStr case =
    ([' '].intercalate (case.inputs.map numeral) ++ [' ']) ++
      '-' :: '>' :: ' ' :: [' '].intercalate (case.outputs.map numeral) := by
  rw [caseStr, List.append_assoc, List.append_assoc]
  rfl

/-- **The line of a case is read as the case.** -/
theorem parseCaseLine_caseStr (h : case.Fits) : parseCaseLine (caseStr case) = .ok (some case) := by
  obtain ⟨inputs, outputs⟩ := case
  have hin : ∀ v ∈ inputs, v < 2 ^ 128 := fun v hv => h v (List.mem_append_left _ hv)
  have hout : ∀ v ∈ outputs, v < 2 ^ 128 := fun v hv => h v (List.mem_append_right _ hv)
  have hline := trim_arrow ([' '].intercalate (inputs.map numeral) ++ [' '])
    (' ' :: [' '].intercalate (outputs.map numeral))
  rw [← caseStr_eq ⟨inputs, outputs⟩] at hline
  generalize hl : ([' '].intercalate (inputs.map numeral) ++ [' ']).dropWhile isWhitespace = lhs at hline
  generalize hr : (' ' :: [' '].intercalate (outputs.map numeral)).rdropWhile isWhitespace = rhs at hline
  have hmem : ∀ c ∈ lhs, c = ' ' ∨ 48 ≤ c.toNat ∧ c.toNat ≤ 57 := by
    intro c hc
    rw [← hl] at hc
    rcases List.mem_append.mp (List.dropWhile_sublist _ |>.mem hc) with hc | hc
    · exact mem_numerals hc
    · exact Or.inl (List.mem_singleton.mp hc)
  have hdash : '-' ∉ lhs := fun hc => by
    rcases hmem '-' hc with e | e
    · exact absurd e (by decide)
    · exact absurd e.1 (by decide)
  have hhead : (lhs ++ '-' :: '>' :: rhs).head? ≠ some '#' := by
    cases lhs with
    | nil => exact fun e => absurd (Option.some.inj e) (by decide)
    | cons c lhs =>
      intro e
      obtain rfl := Option.some.inj e
      rcases hmem '#' List.mem_cons_self with e | e
      · exact absurd e (by decide)
      · exact absurd e.1 (by decide)
  have hskip : ¬ (lhs ++ '-' :: '>' :: rhs = [] ∨ (lhs ++ '-' :: '>' :: rhs).head? = some '#') := by
    rintro (e | e)
    · exact absurd (List.append_eq_nil_iff.mp e).2 (List.cons_ne_nil _ _)
    · exact hhead e
  have hwords : parseInts lhs = .ok inputs ∧ parseInts rhs = .ok outputs := by
    refine ⟨parseInts_of_tokens ?_ hin, parseInts_of_tokens ?_ hout⟩
    · rw [← hl, tokens_dropWhile, tokens_append_sep _ (by decide), tokens_nil, List.append_nil,
        tokens_numerals]
    · rw [← hr, tokens_rdropWhile, tokens_cons_sep (by decide), tokens_numerals]
  unfold parseCaseLine
  dsimp only
  rw [hline, if_neg hskip, splitArrow_append hdash]
  dsimp only
  rw [hwords.1, hwords.2]
  rfl

/-- What a line is read as fits. -/
theorem fits_of_parseCaseLine (h : parseCaseLine s = .ok (some case)) : case.Fits := by
  have hints : ∀ {u : List Char} {vs : List ℕ}, parseInts u = .ok vs → ∀ v ∈ vs, v < 2 ^ 128 := by
    intro u vs h v hv
    obtain ⟨w, -, hw⟩ := exists_of_mem_mapM_ok h v hv
    split at hw
    · rename_i v' hv'
      obtain rfl := Except.ok.inj hw
      exact lt_of_parseU128 hv'
    · cases hw
  unfold parseCaseLine at h
  dsimp only at h
  split_ifs at h with hskip
  · cases h
  split at h
  · cases h
  · obtain ⟨inputs, hin, h⟩ := bind_eq_ok.mp h
    obtain ⟨outputs, hout, h⟩ := bind_eq_ok.mp h
    obtain rfl := Option.some.inj (Except.ok.inj h)
    intro v hv
    rcases List.mem_append.mp hv with hv | hv
    · exact hints hin v hv
    · exact hints hout v hv

end Lines

/-! ## 3. The cases -/

section Cases

variable {cases : List FuzzCase} {input : List Char}

/-- Lines without a return at their end are the lines of their text. -/
theorem lines_unlines : ∀ {ls : List (List Char)},
    (∀ l ∈ ls, '\n' ∉ l ∧ l.getLast? ≠ some '\r') → lines (unlines '\n' ls) = ls := by
  intro ls h
  rw [lines, splitOn_unlines fun l hl => (h l hl).1]
  induction ls with
  | nil => rfl
  | cons l ls ih =>
    rw [List.forall_mem_cons] at h
    have hne : ls ++ [[]] = [] → False := fun e => by
      simp at e
    rw [List.cons_append, linesOf.eq_3 l _ hne, if_neg h.1.2, ih h.2]

theorem caseStr_line (case : FuzzCase) :
    '\n' ∉ caseStr case ∧ (caseStr case).getLast? ≠ some '\r' := by
  have hmem : ∀ c ∈ caseStr case, c.toNat ≠ 10 ∧ c.toNat ≠ 13 := by
    intro c hc
    have hnum : ∀ vs : List ℕ, c ∈ [' '].intercalate (vs.map numeral) →
        c.toNat ≠ 10 ∧ c.toNat ≠ 13 := by
      intro vs hc
      rcases mem_numerals hc with rfl | hd
      · decide
      · omega
    rcases List.mem_append.mp hc with hc | hc
    · rcases List.mem_append.mp hc with hc | hc
      · exact hnum _ hc
      · have : c = ' ' ∨ c = '-' ∨ c = '>' ∨ c = ' ' := by simpa using hc
        rcases this with rfl | rfl | rfl | rfl <;> decide
    · exact hnum _ hc
  refine ⟨fun h => (hmem _ h).1 rfl, fun h => ?_⟩
  exact (hmem _ (List.mem_of_getLast? h)).2 rfl

/-- The text of some cases is read as the cases. -/
theorem parseCases_caseStr (h : ∀ case ∈ cases, case.Fits) :
    parseCases (unlines '\n' (cases.map caseStr)) = .ok cases := by
  rw [parseCases, lines_unlines fun l hl => by
    obtain ⟨case, -, rfl⟩ := List.mem_map.mp hl
    exact caseStr_line case]
  have hlines : (cases.map caseStr).mapM parseCaseLine = .ok (cases.map some) := by
    induction cases with
    | nil => rfl
    | cons case cases ih =>
      rw [List.forall_mem_cons] at h
      rw [List.map_cons, List.mapM_cons, parseCaseLine_caseStr h.1, ih h.2]
      rfl
  rw [hlines]
  show Except.ok ((cases.map some).filterMap id) = _
  rw [List.filterMap_map]
  exact congrArg _ List.filterMap_some

theorem fits_of_parseCases (h : parseCases input = .ok cases) : ∀ case ∈ cases, case.Fits := by
  obtain ⟨found, hfound, h⟩ := bind_eq_ok.mp h
  obtain rfl := Except.ok.inj h
  intro case hcase
  obtain ⟨v, hv, e⟩ := List.mem_filterMap.mp hcase
  obtain rfl : v = some case := e
  obtain ⟨raw, -, hraw⟩ := exists_of_mem_mapM_ok hfound _ hv
  exact fits_of_parseCaseLine hraw

/-- **The image of `parse_cases`**: the lists of cases whose numbers are `u128` values, and the text
    that the command prints of such a list is read as the list. -/
theorem parseCases_image (cases : List FuzzCase) :
    ((∃ input, parseCases input = .ok cases) ↔ ∀ case ∈ cases, case.Fits) ∧
    ((∃ input, parseCases input = .ok cases) ↔
      parseCases (unlines '\n' (cases.map caseStr)) = .ok cases) :=
  ⟨⟨fun ⟨_, h⟩ => fits_of_parseCases h, fun h => ⟨_, parseCases_caseStr h⟩⟩,
    ⟨fun ⟨_, h⟩ => parseCases_caseStr (fits_of_parseCases h), fun h => ⟨_, h⟩⟩⟩

end Cases

/-! ## 4. The command -/

/-- The exit codes. -/
inductive ExitCode where
  | success
  | failure
  | usage
  deriving DecidableEq, Repr

/-- The loop of a single shot: every case under the same generator. -/
def singleShots (circuit : Circuit) (seed : UInt64) : List FuzzCase → Option ExitCode
  | [] => some .success
  | case :: cases => do
      match ← checkCase circuit case (SplitMix64.new seed) with
      | some _ => return .failure
      | none => singleShots circuit seed cases

/-- `cmd_fuzz` on the text of the circuit and of the cases. -/
def cmdFuzz (file : Option (List Char)) (input : List Char) (shots : ℕ) (seed : UInt64) :
    Option ExitCode :=
  match file with
  | none => some .usage
  | some text => do
      match ← (parse text : Option (Except ParseError Circuit)) with
      | .error _ => return .usage
      | .ok circuit =>
          match parseCases input with
          | .error _ => return .usage
          | .ok cases =>
              if shots ≤ 1 then singleShots circuit seed cases
              else
                match ← fuzz circuit cases shots seed with
                | .ok _ => return .success
                | .error _ => return .failure

section Command

variable {c : Circuit} {cases : List FuzzCase} {seed : UInt64}

theorem singleShots_success : ∀ {cases : List FuzzCase},
    singleShots c seed cases = some .success ↔
      ∀ case ∈ cases, checkCase c case (SplitMix64.new seed) = some none
  | [] => iff_of_true rfl (List.forall_mem_nil _)
  | case :: cases => by
      rw [List.forall_mem_cons, ← singleShots_success, singleShots, Option.bind_eq_bind,
        Option.bind_eq_some_iff]
      constructor
      · rintro ⟨v, hv, h⟩
        cases v with
        | some failure => cases h
        | none => exact ⟨hv, h⟩
      · exact fun h => ⟨none, h.1, h.2⟩

/-- **When `kmx fuzz` succeeds**: the circuit and the cases are read, and every case passes on each
    shot, which is the generator of the seed for one shot or none, and that of the shot's number for
    more. A circuit that passes on the streams of its length succeeds for every seed. -/
theorem cmdFuzz_exit (text input : List Char) (shots : ℕ) (seed : UInt64) :
    (cmdFuzz (some text) input shots seed = some .success ↔
      ∃ c cases, parse text = pure c ∧ parseCases input = .ok cases ∧
        (shots ≤ 1 → ∀ case ∈ cases, checkCase c case (SplitMix64.new seed) = some none) ∧
        (1 < shots → ∀ i j case, j < shots → cases[i]? = some case →
          checkCase c case (shotSource seed (i * shots + j)) = some none)) ∧
    ∀ c cases, parse text = pure c → parseCases input = .ok cases →
      (∀ case ∈ cases, ∀ bits : List Bool, bits.length = askCount c.instructions →
        checkCase c case (FixedBits.new bits) = some none) →
      cmdFuzz (some text) input shots seed = some .success := by
  have hread : ∀ c cases, parse text = pure c → parseCases input = .ok cases →
      cmdFuzz (some text) input shots seed =
        if shots ≤ 1 then singleShots c seed cases
        else (fuzz c cases shots seed).bind fun r => match r with
          | .ok _ => some .success
          | .error _ => some .failure := by
    intro c cases hparse hcases
    unfold cmdFuzz
    dsimp only
    rw [hparse, hcases]
    rfl
  have hmany : ∀ c cases, (fuzz c cases shots seed).bind (fun r => match r with
        | .ok _ => some ExitCode.success
        | .error _ => some ExitCode.failure) = some .success ↔
      ∀ i j case, j < shots → cases[i]? = some case →
        checkCase c case (shotSource seed (i * shots + j)) = some none := by
    intro c cases
    rw [Option.bind_eq_some_iff]
    constructor
    · rintro ⟨r, hr, h⟩
      cases r with
      | error e => cases h
      | ok n => exact (fuzz_eq_ok.mp hr).2
    · exact fun h => ⟨.ok _, fuzz_eq_ok.mpr ⟨rfl, h⟩, rfl⟩
  have hexit : ∀ c cases, parse text = pure c → parseCases input = .ok cases →
      (cmdFuzz (some text) input shots seed = some .success ↔
        (shots ≤ 1 → ∀ case ∈ cases, checkCase c case (SplitMix64.new seed) = some none) ∧
        (1 < shots → ∀ i j case, j < shots → cases[i]? = some case →
          checkCase c case (shotSource seed (i * shots + j)) = some none)) := by
    intro c cases hparse hcases
    rw [hread c cases hparse hcases]
    split_ifs with hone
    · rw [singleShots_success]
      exact ⟨fun h => ⟨fun _ => h, fun hlt => absurd hone (by omega)⟩, fun h => h.1 hone⟩
    · rw [hmany]
      exact ⟨fun h => ⟨fun hle => absurd hle hone, fun _ => h⟩, fun h => h.2 (by omega)⟩
  refine ⟨⟨fun h => ?_, fun h => ?_⟩, fun c cases hparse hcases hstreams => ?_⟩
  · rcases Outcome.cases (parse text) with ⟨c, hparse⟩ | ⟨e, hparse⟩ | hparse
    · cases hcases : parseCases input with
      | error e =>
        unfold cmdFuzz at h
        dsimp only at h
        rw [hparse, hcases] at h
        cases h
      | ok cases => exact ⟨c, cases, hparse, rfl, (hexit c cases hparse hcases).mp h⟩
    · unfold cmdFuzz at h
      dsimp only at h
      rw [hparse] at h
      cases h
    · unfold cmdFuzz at h
      dsimp only at h
      rw [hparse] at h
      cases h
  · obtain ⟨c, cases, hparse, hcases, h⟩ := h
    exact (hexit c cases hparse hcases).mpr h
  · refine (hexit c cases hparse hcases).mpr ⟨fun _ case hcase => ?_, fun _ i j case _ hcase => ?_⟩
    · rw [checkCase_taken]
      exact hstreams case hcase _ (length_taken _ _)
    · rw [checkCase_taken]
      exact hstreams case (List.mem_of_getElem? hcase) _ (length_taken _ _)

end Command

end GroverTax.Kickmix
