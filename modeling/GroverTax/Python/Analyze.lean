/-
  File:      GroverTax/Python/Analyze.lean
  Subject:   The discard count of src/python/grover_tax/analyze.py: `_scan_series`, `_m1_stats` and
             `_build_context`, over the files of the repository.

  A path is the list of its names below the repository root. The figures of the module
  `statistics` are a parameter, since nothing is decided by them before the report; the gnu-time
  files, which only flags read, are left out.

  * `reportOf_ok` -- what a report counts: the series that are not empty, and the records of
    the log beside the results directory.
-/
import GroverTax.Python.Discards
import Mathlib.Data.Char
import Mathlib.Data.List.Lex
import Mathlib.Tactic

namespace GroverTax.Python

open GroverTax.Lib

/-! ## 1. Files -/

abbrev Path := List (List Char)

/-- The directories, and the regular files with their texts. -/
structure FileSystem where
  dirs : List Path
  files : List (Path × List Char)
  nodup : (files.map Prod.fst).Nodup

namespace FileSystem

variable (fs : FileSystem)

def isDir (p : Path) : Bool := p ∈ fs.dirs

/-- The text of a file; `none` is no file. -/
def read (p : Path) : Option (List Char) := (fs.files.find? fun f => f.1 = p).map Prod.snd

/-- `mkdir(parents=True, exist_ok=True)` of a directory at the root. -/
def mkdir (p : Path) : FileSystem := { fs with dirs := p :: fs.dirs }

theorem nodup_write (p : Path) (text : List Char) :
    (((p, text) :: fs.files.filter fun f => f.1 ≠ p).map Prod.fst).Nodup := by
  rw [List.map_cons, List.nodup_cons]
  refine ⟨fun h => ?_, fs.nodup.sublist (List.filter_sublist.map _)⟩
  obtain ⟨f, hf, e⟩ := List.mem_map.mp h
  exact absurd e (by simpa using (List.mem_filter.mp hf).2)

def write (p : Path) (text : List Char) : FileSystem where
  dirs := fs.dirs
  files := (p, text) :: fs.files.filter fun f => f.1 ≠ p
  nodup := fs.nodup_write p text

/-- The files a pattern `*<suffix>` finds in a directory. -/
def globbed (dir : Path) (suffix : List Char) (f : Path × List Char) : Bool :=
  f.1 ≠ [] ∧ f.1.dropLast = dir ∧ suffix <:+ f.1.getLastD []

/-- `sorted(dir.glob("*<suffix>"))`. -/
def glob (dir : Path) (suffix : List Char) : List (Path × List Char) :=
  (fs.files.filter (globbed dir suffix)).insertionSort fun f g => f.1 ≤ g.1

end FileSystem

/-- `results_dir()`. -/
def resultsDir : Path := ["results".toList]

/-- `discards_log_path()`. -/
def discardsLogPath : Path := resultsDir ++ ["discards.log".toList]

/-- `append_discard` without `log_path`. -/
def appendDefault (now : Instant) (d : Discard) (fs : FileSystem) :
    Except DiscardError FileSystem := do
  let text ← appendDiscard now d (fs.read discardsLogPath)
  return (fs.mkdir resultsDir).write discardsLogPath text

/-! ## 2. Series -/

inductive Prover where
  | sp1 | stwo
  deriving DecidableEq, Repr

def Prover.name : Prover → List Char
  | .sp1 => "sp1".toList
  | .stwo => "stwo".toList

/-- A dict with the keys `"sp1"` and `"stwo"`. -/
structure PerProver (α : Type) where
  sp1 : α
  stwo : α

def PerProver.get {α : Type} (x : PerProver α) : Prover → α
  | .sp1 => x.sp1
  | .stwo => x.stwo

/-- What `_build_context` raises. -/
inductive AnalyzeError where
  /-- MISSING_ARTIFACT: results dir {rdir} does not exist -/
  | missingArtifact (rdir : Path)
  /-- SCHEMA_INVALID: malformed JSON at {f}: {e} -/
  | schemaInvalid (f : Path)
  /-- INSUFFICIENT_SAMPLES: M1 for {prover}: {s.n_valid} valid runs, need ≥ {MIN_RUNS_M1} -/
  | insufficientM1 (prover : Prover) (nValid : ℕ)
  /-- INSUFFICIENT_SAMPLES: M5 for {prover}: {s.n_valid} valid runs, need ≥ {MIN_RUNS_M5} -/
  | insufficientM5 (prover : Prover) (nValid : ℕ)
  /-- an exception of the language: an attribute, a key or an index that is not there, a JSON text
      that is not read, a sample that is no number -/
  | uncaught
  deriving DecidableEq, Repr

/-- `^<prover>_v0\.1_(.+)<suffix>$`. -/
def matchProver (suffix name : List Char) (p : Prover) : Option (List Char) :=
  let front := p.name ++ "_v0.1_".toList
  let run := (name.drop front.length).take (name.length - front.length - suffix.length)
  if name = front ++ run ++ suffix ∧ run ≠ [] ∧ '\n' ∉ run then some run else none

/-- `^(sp1|stwo)_v0\.1_(.+)<suffix>$`. -/
def matchName (suffix name : List Char) : Option (Prover × List Char) :=
  match matchProver suffix name .sp1 with
  | some run => some (.sp1, run)
  | none => (matchProver suffix name .stwo).map (Prod.mk .stwo)

/-- `list(x)`. -/
def pyList : Json → Except AnalyzeError (List Json)
  | .arr items => .ok items
  | .str codes => .ok (codes.map fun c => .str [c])
  | .obj members => .ok ((members.map Prod.fst).eraseDups.map .str)
  | _ => .error .uncaught

/-- `list(data.get("results", [{}])[0].get("times", []))`. -/
def timesOf (data : Json) : Except AnalyzeError (List Json) :=
  match data with
  | .obj _ =>
      match data.get? "results".toList with
      | none => .ok []
      | some (.arr (.obj members :: _)) =>
          match (Json.obj members).get? "times".toList with
          | none => .ok []
          | some times => pyList times
      | some _ => .error .uncaught
  | _ => .error .uncaught

/-- A file that matched, and its samples. -/
structure Series where
  prover : Prover
  file : Path
  run : List Char
  samples : List Json

/-- A file the loop does not skip. -/
def matchFile (suffix : List Char) (f : Path × List Char) :
    Option ((Prover × List Char) × Path × List Char) :=
  (matchName suffix (f.1.getLastD [])).map fun m => (m, f)

/-- One round of a loop of `_scan_series`. -/
def readSeries (m : (Prover × List Char) × Path × List Char) : Except AnalyzeError Series :=
  match loads (universalNewlines m.2.2) with
  | none => .error (.schemaInvalid m.2.1)
  | some data => do return ⟨m.1.1, m.2.1, m.1.2, ← timesOf data⟩

/-- One loop of `_scan_series`. -/
def scanKind (suffix : List Char) (fs : FileSystem) (dir : Path) :
    Except AnalyzeError (List Series) :=
  ((fs.glob dir suffix).filterMap (matchFile suffix)).mapM readSeries

def perProver (series : List Series) : PerProver (List Series) where
  sp1 := series.filter fun s => s.prover = .sp1
  stwo := series.filter fun s => s.prover = .stwo

/-- `_scan_series`: the timings and the verification times. -/
def scanSeries (fs : FileSystem) (dir : Path) : Except AnalyzeError (List Series × List Series) := do
  let timings ← scanKind ".timing.json".toList fs dir
  let verify ← scanKind ".verify.json".toList fs dir
  return (timings, verify)

/-- The series of a results directory, and the timings of its two days if both are there. -/
structure Scan where
  timings : List Series
  verify : List Series
  days : Option (List Series × List Series)

def scanResults (fs : FileSystem) (rdir : Path) : Except AnalyzeError Scan :=
  if fs.isDir (rdir ++ ["day1".toList]) ∧ fs.isDir (rdir ++ ["day2".toList]) then do
    let (timings1, verify1) ← scanSeries fs (rdir ++ ["day1".toList])
    let (timings2, verify2) ← scanSeries fs (rdir ++ ["day2".toList])
    return ⟨timings1 ++ timings2, verify1 ++ verify2, some (timings1, timings2)⟩
  else do
    let (timings, verify) ← scanSeries fs rdir
    return ⟨timings, verify, none⟩

/-! ## 3. Statistics -/

def MIN_RUNS_M1 : ℕ := 10
def MIN_RUNS_M5 : ℕ := 40

/-- `Stats`; the figures are `none` where the source writes zeros. -/
structure Stats (F : Type) where
  figures : Option F
  nValid : ℕ
  nDiscarded : ℕ

section Statistics

variable {F : Type} (figures : List Json → Except AnalyzeError F)

/-- `_stats`. -/
def statsOf (samples : List Json) (nDiscarded : ℕ) : Except AnalyzeError (Stats F) :=
  if samples.isEmpty then .ok ⟨none, 0, nDiscarded⟩
  else do return ⟨some (← figures samples), samples.length, nDiscarded⟩

/-- `_m1_stats` for one prover: the first run of every series is discarded. -/
def m1Of (runs : List Series) : Except AnalyzeError (Stats F) :=
  statsOf figures (runs.flatMap fun s => s.samples.drop 1) (runs.countP fun s => !s.samples.isEmpty)

/-- `_m1_stats`. -/
def m1Stats (timings : List Series) : Except AnalyzeError (PerProver (Stats F)) := do
  let sp1 ← m1Of figures (perProver timings).sp1
  let stwo ← m1Of figures (perProver timings).stwo
  return ⟨sp1, stwo⟩

/-- The statistics of the two days. -/
def dayStats : Option (List Series × List Series) →
    Except AnalyzeError (Option (PerProver (Stats F) × PerProver (Stats F)))
  | none => .ok none
  | some (timings1, timings2) => do
      let m1Day1 ← m1Stats figures timings1
      let m1Day2 ← m1Stats figures timings2
      return some (m1Day1, m1Day2)

/-- The statistics of the verification times. -/
def m5Stats (verify : List Series) : Except AnalyzeError (PerProver (Stats F)) := do
  let sp1 ← statsOf figures ((perProver verify).sp1.flatMap Series.samples) 0
  let stwo ← statsOf figures ((perProver verify).stwo.flatMap Series.samples) 0
  return ⟨sp1, stwo⟩

/-- `d.get("prover") == prover`. -/
def isProver (p : Prover) (d : Json) : Except AnalyzeError Bool :=
  match d with
  | .obj _ =>
      match d.get? "prover".toList with
      | some (.str codes) => .ok (codes = codePoints p.name)
      | _ => .ok false
  | _ => .error .uncaught

/-- The statistics of a prover with its records of the log. -/
def foldDiscards (discards : List Json) (p : Prover) (s : Stats F) :
    Except AnalyzeError (Stats F) := do
  let extra := (← discards.mapM (isProver p)).count true
  if extra ≠ 0 then return { s with nDiscarded := s.nDiscarded + extra } else return s

/-- `m1_with_log_discards`. -/
def withLogDiscards (discards : List Json) (m1 : PerProver (Stats F)) :
    Except AnalyzeError (PerProver (Stats F)) := do
  let sp1 ← foldDiscards discards .sp1 m1.sp1
  let stwo ← foldDiscards discards .stwo m1.stwo
  return ⟨sp1, stwo⟩

/-- A gate of `_build_context`. -/
def gate (minRuns : ℕ) (s : Stats F) (e : ℕ → AnalyzeError) : Except AnalyzeError Unit :=
  if 0 < s.nValid ∧ s.nValid < minRuns then .error (e s.nValid) else .ok ()

/-- What a report is rendered from: the stub without data, or the statistics. -/
inductive Context (F : Type) where
  | stub (discards : List Json)
  | real (m1 m5 : PerProver (Stats F)) (days : Option (PerProver (Stats F) × PerProver (Stats F)))
      (discards : List Json)

/-- The discarded count a report stands on; the stub prints zeros. -/
def Context.m1Discarded : Context F → Prover → ℕ
  | .stub _, _ => 0
  | .real m1 _ _ _, p => (m1.get p).nDiscarded

/-- `_load_discards` raises what `json.loads` raises. -/
def discardsOf (log : Option (List Char)) : Except AnalyzeError (List Json) :=
  match loadDiscards log with
  | none => .error .uncaught
  | some discards => .ok discards

/-- The part of `_build_context` behind the scan. -/
def reportOf (scan : Scan) (log : Option (List Char)) : Except AnalyzeError (Context F) := do
  let days ← dayStats figures scan.days
  let discards ← discardsOf log
  let m1 ← m1Stats figures scan.timings
  let m5 ← m5Stats figures scan.verify
  let m1 ← withLogDiscards discards m1
  gate MIN_RUNS_M1 m1.sp1 (.insufficientM1 .sp1)
  gate MIN_RUNS_M1 m1.stwo (.insufficientM1 .stwo)
  gate MIN_RUNS_M5 m5.sp1 (.insufficientM5 .sp1)
  gate MIN_RUNS_M5 m5.stwo (.insufficientM5 .stwo)
  if 0 < m1.sp1.nValid ∧ 0 < m1.stwo.nValid then return .real m1 m5 days discards
  else return .stub discards

/-- `_build_context`. The log it reads lies beside the results directory. -/
def buildContext (fs : FileSystem) (rdir : Path) : Except AnalyzeError (Context F) :=
  if fs.isDir rdir = false then .error (.missingArtifact rdir)
  else do
    let scan ← scanResults fs rdir
    reportOf figures scan (fs.read (rdir.dropLast ++ [discardsLogPath.getLastD []]))

end Statistics

/-! ## 4. What a report counts -/

/-- The series of a prover that are not empty: each has a first run, which is discarded. -/
def coldRuns (timings : List Series) (p : Prover) : ℕ :=
  timings.countP fun s => s.prover = p ∧ s.samples.isEmpty = false

/-- The runs of a prover that count. -/
def validRuns (timings : List Series) (p : Prover) : ℕ :=
  ((timings.filter fun s => s.prover = p).flatMap fun s => s.samples.drop 1).length

/-- Both provers have runs that count. -/
def Measured (timings : List Series) : Prop := ∀ p, 0 < validRuns timings p

instance (timings : List Series) : Decidable (Measured timings) :=
  decidable_of_iff (0 < validRuns timings .sp1 ∧ 0 < validRuns timings .stwo)
    ⟨fun h p => by cases p with | sp1 => exact h.1 | stwo => exact h.2, fun h => ⟨h _, h _⟩⟩

/-- The record of a log names a prover. -/
def hasProver (p : Prover) (d : Json) : Bool :=
  match d.get? "prover".toList with
  | some (.str codes) => codes = codePoints p.name
  | _ => false

/-- The records of a log for a prover. -/
def records (discards : List Json) (p : Prover) : ℕ := discards.countP (hasProver p)

section Counts

variable {F : Type} {figures : List Json → Except AnalyzeError F} {timings : List Series}
  {discards : List Json} {p : Prover}

theorem statsOf_ok {samples : List Json} {n : ℕ} {s : Stats F}
    (h : statsOf figures samples n = .ok s) : s.nValid = samples.length ∧ s.nDiscarded = n := by
  unfold statsOf at h
  split_ifs at h with he
  · cases h
    rw [List.isEmpty_iff.mp he]
    exact ⟨rfl, rfl⟩
  · obtain ⟨f, -, h⟩ := bind_eq_ok.mp h
    cases h
    exact ⟨rfl, rfl⟩

/-- What the statistics of a prover count, before the log. -/
structure Counted (timings : List Series) (p : Prover) (s : Stats F) : Prop where
  valid : s.nValid = validRuns timings p
  discarded : s.nDiscarded = coldRuns timings p

theorem m1Of_ok {s : Stats F}
    (h : m1Of figures (timings.filter fun s => s.prover = p) = .ok s) : Counted timings p s := by
  obtain ⟨hv, hd⟩ := statsOf_ok h
  refine ⟨hv, hd.trans ?_⟩
  rw [List.countP_filter]
  exact List.countP_congr fun s _ => by simp [and_comm]

theorem m1Stats_ok {m1 : PerProver (Stats F)} (h : m1Stats figures timings = .ok m1) (p : Prover) :
    Counted timings p (m1.get p) := by
  obtain ⟨sp1, h1, h⟩ := bind_eq_ok.mp h
  obtain ⟨stwo, h2, h⟩ := bind_eq_ok.mp h
  cases h
  cases p with
  | sp1 => exact m1Of_ok h1
  | stwo => exact m1Of_ok h2

theorem isProver_ok {d : Json} {b : Bool} (h : isProver p d = .ok b) : b = hasProver p d := by
  unfold isProver at h
  unfold hasProver
  split at h
  · split at h
    · cases h
      rfl
    · cases h
      rfl
  · cases h

theorem count_mapM_isProver : ∀ {discards : List Json} {bs : List Bool},
    discards.mapM (isProver p) = .ok bs → bs.count true = records discards p
  | [], bs, h => by
      cases h
      rfl
  | d :: discards, bs, h => by
      rw [List.mapM_cons] at h
      obtain ⟨b, hb, h⟩ := bind_eq_ok.mp h
      obtain ⟨bs', hbs, h⟩ := bind_eq_ok.mp h
      cases h
      rw [records, List.countP_cons, List.count_cons, count_mapM_isProver hbs, isProver_ok hb,
        records]
      cases hasProver p d <;> rfl

theorem foldDiscards_ok {s s' : Stats F} (h : foldDiscards discards p s = .ok s') :
    s'.nValid = s.nValid ∧ s'.nDiscarded = s.nDiscarded + records discards p := by
  obtain ⟨bs, hbs, h⟩ := bind_eq_ok.mp h
  rw [← count_mapM_isProver hbs]
  dsimp only at h
  split_ifs at h with h0
  · cases h
    exact ⟨rfl, rfl⟩
  · cases h
    rw [not_ne_iff.mp h0]
    exact ⟨rfl, rfl⟩

theorem withLogDiscards_ok {m1 m1' : PerProver (Stats F)}
    (h : withLogDiscards discards m1 = .ok m1') (p : Prover) :
    (m1'.get p).nValid = (m1.get p).nValid ∧
      (m1'.get p).nDiscarded = (m1.get p).nDiscarded + records discards p := by
  obtain ⟨sp1, h1, h⟩ := bind_eq_ok.mp h
  obtain ⟨stwo, h2, h⟩ := bind_eq_ok.mp h
  cases h
  cases p with
  | sp1 => exact foldDiscards_ok h1
  | stwo => exact foldDiscards_ok h2

/-- **What a report counts**: the series that are not empty, and the records of its log. Without runs
    to report it is the stub. -/
theorem reportOf_ok {scan : Scan} {log : Option (List Char)} {ctx : Context F}
    (h : reportOf figures scan log = .ok ctx) :
    ∃ discards, loadDiscards log = some discards ∧
      if Measured scan.timings then ∃ m1 m5 days, ctx = .real m1 m5 days discards ∧
        ∀ p, (m1.get p).nDiscarded = coldRuns scan.timings p + records discards p
      else ctx = .stub discards := by
  obtain ⟨days, -, h⟩ := bind_eq_ok.mp h
  obtain ⟨discards, hlog, h⟩ := bind_eq_ok.mp h
  obtain ⟨m0, h0, h⟩ := bind_eq_ok.mp h
  obtain ⟨m5, -, h⟩ := bind_eq_ok.mp h
  obtain ⟨m1, h1, h⟩ := bind_eq_ok.mp h
  obtain ⟨-, -, h⟩ := bind_eq_ok.mp h
  obtain ⟨-, -, h⟩ := bind_eq_ok.mp h
  obtain ⟨-, -, h⟩ := bind_eq_ok.mp h
  obtain ⟨-, -, h⟩ := bind_eq_ok.mp h
  have hload : loadDiscards log = some discards := by
    unfold discardsOf at hlog
    split at hlog
    · cases hlog
    · rename_i ds hl
      rw [hl, Except.ok.inj hlog]
  have hvalid : ∀ p, (m1.get p).nValid = validRuns scan.timings p := fun p =>
    (withLogDiscards_ok h1 p).1.trans (m1Stats_ok h0 p).valid
  have hmeasured : (0 < m1.sp1.nValid ∧ 0 < m1.stwo.nValid) ↔ Measured scan.timings := by
    have e1 : m1.sp1.nValid = _ := hvalid .sp1
    have e2 : m1.stwo.nValid = _ := hvalid .stwo
    rw [e1, e2]
    refine ⟨fun h p => ?_, fun h => ⟨h _, h _⟩⟩
    cases p with
    | sp1 => exact h.1
    | stwo => exact h.2
  refine ⟨discards, hload, ?_⟩
  by_cases hm : Measured scan.timings
  · rw [if_pos (hmeasured.mpr hm)] at h
    cases h
    rw [if_pos hm]
    refine ⟨_, _, _, rfl, fun p => ?_⟩
    exact (withLogDiscards_ok h1 p).2.trans (by rw [(m1Stats_ok h0 p).discarded])
  · rw [if_neg (fun e => hm (hmeasured.mp e))] at h
    cases h
    rw [if_neg hm]

end Counts

end GroverTax.Python
