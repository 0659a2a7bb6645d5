/-
  File:      GroverTax/Python/DiscardCount.lean
  Subject:   The discards a report counts against the runs that were discarded.

  A history of discarded runs is a list of calls of `append_discard` with the default path, each for
  a run of its own; the first run of every series has its record (`OnePerRun`).

  A report counts the first runs of the series and the records of a log. It is exact for a prover
  (`CountedExactly`) when its count is the number of the discarded runs, every one of them is counted
  and none is counted as both.

  * `logRuns_frame` -- the calls change neither the series nor the log the reader reads: it reads
    `discards.log` beside the results directory, they write the one in it;
  * `m1Discarded_eq` -- the count is that of the first runs and of the records read;
  * `countedExactly_iff` -- it is exact when the records are those of the runs that are no first run;
  * `reported_iff` -- **so it is exact exactly when the log beside the directory holds the records of
    the other discarded runs.**
-/
import GroverTax.Python.Analyze

namespace GroverTax.Python

open GroverTax.Lib

/-! ## 1. Histories -/

/-- A run of a measurement: the first of the series in a file, or another one. -/
inductive MeasuredRun where
  | first (series : Path)
  | other (id : ℕ)
  deriving DecidableEq, Repr

/-- A discarded run, and the call that logged it. -/
structure LoggedRun where
  run : MeasuredRun
  now : Instant
  discard : Discard
  deriving DecidableEq, Repr

/-- The calls, in order. -/
def logRuns : List LoggedRun → FileSystem → Except DiscardError FileSystem
  | [], fs => .ok fs
  | e :: entries, fs => do logRuns entries (← appendDefault e.now e.discard fs)

/-- One record per discarded run, the first run of each series among them. -/
structure OnePerRun (timings : List Series) (entries : List LoggedRun) : Prop where
  distinct : (entries.map LoggedRun.run).Nodup
  cold : ∀ s ∈ timings, s.samples.isEmpty = false → ∃ e ∈ entries, e.run = .first s.file ∧
    e.discard.prover = s.prover.name ∧ e.discard.reason.str = DiscardReason.coldCache.value

/-- The record a call writes, as it is read back. -/
def LoggedRun.record (e : LoggedRun) : Json := discardJson (e.now, e.discard)

/-- The number of distinct discarded runs of a prover. -/
def discardedRuns (entries : List LoggedRun) (p : Prover) : ℕ :=
  ((entries.filter fun e => e.discard.prover = p.name).map LoggedRun.run).dedup.length

/-- The first runs of the series of a prover. -/
def firstRuns (timings : List Series) (p : Prover) : List MeasuredRun :=
  (timings.filter fun s => s.prover = p ∧ s.samples.isEmpty = false).map fun s => .first s.file

/-- The discarded runs of a prover besides those in `cold`. -/
def otherRuns (entries : List LoggedRun) (p : Prover) (cold : List MeasuredRun) : List LoggedRun :=
  entries.filter fun e => e.discard.prover = p.name ∧ e.run ∉ cold

/-! ## 2. What the calls leave alone -/

section Frame

variable {fs fs' : FileSystem} {now : Instant} {d : Discard}

/-- `discards.log` beside the results directory. -/
def rootLogPath : Path := resultsDir.dropLast ++ [discardsLogPath.getLastD []]

theorem appendDefault_ok (h : appendDefault now d fs = .ok fs') :
    ∃ text, fs' = (fs.mkdir resultsDir).write discardsLogPath text := by
  obtain ⟨text, -, h⟩ := bind_eq_ok.mp h
  exact ⟨text, (Except.ok.inj h).symm⟩

theorem read_write_ne (fs : FileSystem) {p q : Path} (text : List Char) (h : q ≠ p) :
    (fs.write p text).read q = fs.read q := by
  have e : ((p, text) :: fs.files.filter fun f => f.1 ≠ p).find? (fun f => f.1 = q) =
      fs.files.find? fun f => f.1 = q := by
    rw [List.find?_cons_of_neg (by simpa using h.symm), List.find?_filter]
    refine congrArg (List.find? · fs.files) (funext fun f => ?_)
    by_cases hf : f.1 = q
    · simp [hf, h]
    · simp [hf]
  exact congrArg (Option.map Prod.snd) e

theorem glob_write (fs : FileSystem) {p dir : Path} {suffix text : List Char}
    (h : ∀ text, FileSystem.globbed dir suffix (p, text) = false) :
    (fs.write p text).glob dir suffix = fs.glob dir suffix := by
  have e : ((p, text) :: fs.files.filter fun f => f.1 ≠ p).filter (FileSystem.globbed dir suffix) =
      fs.files.filter (FileSystem.globbed dir suffix) := by
    rw [List.filter_cons_of_neg (by simp [h]), List.filter_filter]
    refine List.filter_congr fun f _ => ?_
    by_cases hf : f.1 = p
    · have : FileSystem.globbed dir suffix f = false := by
        rw [← hf] at h
        exact h f.2
      simp [this]
    · simp [hf]
  exact congrArg (List.insertionSort fun f g => f.1 ≤ g.1) e

theorem scanKind_write (fs : FileSystem) {p dir : Path} {suffix text : List Char}
    (h : ∀ text, FileSystem.globbed dir suffix (p, text) = false) :
    scanKind suffix (fs.write p text) dir = scanKind suffix fs dir := by
  rw [scanKind, scanKind, glob_write fs h]

/-- The log is no file of a series. -/
theorem scanSeries_log (fs : FileSystem) (dir : Path) (text : List Char) :
    scanSeries ((fs.mkdir resultsDir).write discardsLogPath text) dir = scanSeries fs dir := by
  have hno : ∀ suffix : List Char, ¬ suffix <:+ discardsLogPath.getLastD [] → ∀ text,
      FileSystem.globbed dir suffix (discardsLogPath, text) = false := by
    intro suffix h text
    rw [FileSystem.globbed, decide_eq_false_iff_not]
    exact fun hg => h hg.2.2
  rw [scanSeries, scanSeries, scanKind_write _ (hno _ (by decide)),
    scanKind_write _ (hno _ (by decide))]
  rfl

theorem isDir_log (fs : FileSystem) (name text : List Char) :
    ((fs.mkdir resultsDir).write discardsLogPath text).isDir (resultsDir ++ [name]) =
      fs.isDir (resultsDir ++ [name]) := by
  have hne : resultsDir ++ [name] ≠ resultsDir := by
    intro e
    have := congrArg List.length e
    simp at this
  show decide (resultsDir ++ [name] ∈ resultsDir :: fs.dirs) = _
  exact decide_eq_decide.mpr (List.mem_cons.trans (or_iff_right hne))

/-- **The calls leave the series alone.** -/
theorem scanResults_log (fs : FileSystem) (text : List Char) :
    scanResults ((fs.mkdir resultsDir).write discardsLogPath text) resultsDir =
      scanResults fs resultsDir := by
  rw [scanResults, scanResults, isDir_log, isDir_log, scanSeries_log, scanSeries_log,
    scanSeries_log]

/-- **The calls leave the series, and the log the reader reads, alone.** -/
theorem logRuns_frame : ∀ {entries : List LoggedRun} {fs fs' : FileSystem},
    logRuns entries fs = .ok fs' → scanResults fs' resultsDir = scanResults fs resultsDir ∧
      fs'.read rootLogPath = fs.read rootLogPath
  | [], _, _, h => by
      cases h
      exact ⟨rfl, rfl⟩
  | e :: entries, fs, fs', h => by
      obtain ⟨fs1, h1, h⟩ := bind_eq_ok.mp h
      obtain ⟨text, rfl⟩ := appendDefault_ok h1
      obtain ⟨hscan, hread⟩ := logRuns_frame h
      refine ⟨hscan.trans (scanResults_log fs text), hread.trans ?_⟩
      exact read_write_ne (fs.mkdir resultsDir) text (by decide)

end Frame

/-! ## 3. The runs of a history -/

section Runs

variable {timings : List Series} {entries : List LoggedRun} {p : Prover}

theorem readSeries_file {m : (Prover × List Char) × Path × List Char} {s : Series}
    (h : readSeries m = .ok s) : s.file = m.2.1 := by
  unfold readSeries at h
  split at h
  · cases h
  · obtain ⟨times, -, h⟩ := bind_eq_ok.mp h
    cases h
    rfl

theorem mapM_readSeries_files : ∀ {ms : List ((Prover × List Char) × Path × List Char)}
    {l : List Series}, ms.mapM readSeries = .ok l → l.map Series.file = ms.map fun m => m.2.1
  | [], l, h => by
      cases h
      rfl
  | m :: ms, l, h => by
      rw [List.mapM_cons] at h
      obtain ⟨s, hs, h⟩ := bind_eq_ok.mp h
      obtain ⟨l', hl, h⟩ := bind_eq_ok.mp h
      cases h
      rw [List.map_cons, List.map_cons, readSeries_file hs, mapM_readSeries_files hl]

theorem filterMap_matchFile_sublist (suffix : List Char) : ∀ fs : List (Path × List Char),
    List.Sublist ((fs.filterMap (matchFile suffix)).map fun m => m.2.1) (fs.map Prod.fst)
  | [] => .slnil
  | f :: fs => by
      have ih := filterMap_matchFile_sublist suffix fs
      cases hm : matchFile suffix f with
      | none =>
        rw [List.filterMap_cons_none hm]
        exact ih.cons _
      | some m =>
        obtain ⟨n, -, rfl⟩ := Option.map_eq_some_iff.mp hm
        rw [List.filterMap_cons_some hm]
        exact ih.cons_cons _

/-- The series of a directory lie in different files of it. -/
theorem scanKind_files {suffix : List Char} {fs : FileSystem} {dir : Path} {l : List Series}
    (h : scanKind suffix fs dir = .ok l) :
    (l.map Series.file).Nodup ∧ ∀ f ∈ l.map Series.file, f.dropLast = dir := by
  have hsub := filterMap_matchFile_sublist suffix (fs.glob dir suffix)
  rw [mapM_readSeries_files h]
  have hperm : (fs.glob dir suffix).Perm (fs.files.filter (FileSystem.globbed dir suffix)) :=
    List.perm_insertionSort _ _
  refine ⟨List.Nodup.sublist hsub ((hperm.map Prod.fst).nodup_iff.mpr
    (fs.nodup.sublist (List.filter_sublist.map _))), fun f hf => ?_⟩
  obtain ⟨g, hg, rfl⟩ := List.mem_map.mp ((hperm.map Prod.fst).mem_iff.mp (hsub.subset hf))
  have hglob := (List.mem_filter.mp hg).2
  rw [FileSystem.globbed, decide_eq_true_eq] at hglob
  exact hglob.2.1

theorem scanResults_files {fs : FileSystem} {rdir : Path} {scan : Scan}
    (h : scanResults fs rdir = .ok scan) : (scan.timings.map Series.file).Nodup := by
  unfold scanResults at h
  split_ifs at h with hdays
  · obtain ⟨⟨t1, v1⟩, h1, h⟩ := bind_eq_ok.mp h
    obtain ⟨⟨t2, v2⟩, h2, h⟩ := bind_eq_ok.mp h
    cases h
    obtain ⟨t1', ht1, h1⟩ := bind_eq_ok.mp h1
    obtain ⟨v1', -, h1⟩ := bind_eq_ok.mp h1
    cases h1
    obtain ⟨t2', ht2, h2⟩ := bind_eq_ok.mp h2
    obtain ⟨v2', -, h2⟩ := bind_eq_ok.mp h2
    cases h2
    obtain ⟨hnd1, hdir1⟩ := scanKind_files ht1
    obtain ⟨hnd2, hdir2⟩ := scanKind_files ht2
    dsimp only
    rw [List.map_append, List.nodup_append]
    refine ⟨hnd1, hnd2, fun a ha b hb e => ?_⟩
    have hsame := (hdir1 a ha).symm.trans ((congrArg List.dropLast e).trans (hdir2 b hb))
    have hday := List.append_cancel_left hsame
    exact absurd hday (by decide)
  · obtain ⟨⟨t, v⟩, h1, h⟩ := bind_eq_ok.mp h
    cases h
    obtain ⟨t', ht, h1⟩ := bind_eq_ok.mp h1
    obtain ⟨v', -, h1⟩ := bind_eq_ok.mp h1
    cases h1
    exact (scanKind_files ht).1

theorem nodup_firstRuns (hnd : (timings.map Series.file).Nodup) : (firstRuns timings p).Nodup := by
  have e : firstRuns timings p = ((timings.filter fun s =>
      s.prover = p ∧ s.samples.isEmpty = false).map Series.file).map MeasuredRun.first :=
    List.map_map.symm
  rw [e]
  exact (hnd.sublist (List.filter_sublist.map _)).map fun _ _ h => MeasuredRun.first.inj h

theorem length_firstRuns : (firstRuns timings p).length = coldRuns timings p := by
  rw [firstRuns, List.length_map, coldRuns, List.countP_eq_length_filter]

/-- Every first run is logged, for its prover. -/
theorem logged_of_mem_firstRuns (hone : OnePerRun timings entries) {r : MeasuredRun}
    (hr : r ∈ firstRuns timings p) : ∃ e ∈ entries, e.discard.prover = p.name ∧ e.run = r := by
  obtain ⟨s, hs, rfl⟩ := List.mem_map.mp hr
  obtain ⟨hmem, hs⟩ := List.mem_filter.mp hs
  obtain ⟨hp, hne⟩ := of_decide_eq_true hs
  obtain ⟨e, he, hrun, hprover, -⟩ := hone.cold s hmem hne
  exact ⟨e, he, hp ▸ hprover, hrun⟩

/-- **The distinct discarded runs are those in `cold` and the others.** -/
theorem discardedRuns_eq (hdistinct : (entries.map LoggedRun.run).Nodup) {cold : List MeasuredRun}
    (hnd : cold.Nodup)
    (hcold : ∀ r ∈ cold, ∃ e ∈ entries, e.discard.prover = p.name ∧ e.run = r) :
    discardedRuns entries p = cold.length + (otherRuns entries p cold).length := by
  have hruns : ∀ q : LoggedRun → Bool, ((entries.filter q).map LoggedRun.run).Nodup :=
    fun q => hdistinct.sublist (List.filter_sublist.map _)
  have hothers : ∀ r, r ∈ (otherRuns entries p cold).map LoggedRun.run ↔
      (∃ e ∈ entries, e.discard.prover = p.name ∧ e.run = r) ∧ r ∉ cold := by
    intro r
    simp only [otherRuns, List.mem_map, List.mem_filter, decide_eq_true_eq]
    constructor
    · intro h
      obtain ⟨e, ⟨he, hp, hc⟩, rfl⟩ := h
      exact ⟨⟨e, he, hp, rfl⟩, hc⟩
    · intro h
      obtain ⟨⟨e, he, hp, rfl⟩, hc⟩ := h
      exact ⟨e, ⟨he, hp, hc⟩, rfl⟩
  have happend : (cold ++ (otherRuns entries p cold).map LoggedRun.run).Nodup :=
    List.nodup_append'.mpr ⟨hnd, hruns _, fun r hr h => ((hothers r).mp h).2 hr⟩
  have hperm : ((entries.filter fun e => e.discard.prover = p.name).map LoggedRun.run).Perm
      (cold ++ (otherRuns entries p cold).map LoggedRun.run) := by
    refine (List.perm_ext_iff_of_nodup (hruns _) happend).mpr fun r => ?_
    rw [List.mem_append, hothers]
    simp only [List.mem_map, List.mem_filter, decide_eq_true_eq]
    constructor
    · intro h
      obtain ⟨e, ⟨he, hp⟩, rfl⟩ := h
      exact or_iff_not_imp_left.mpr fun hc => ⟨⟨e, he, hp, rfl⟩, hc⟩
    · intro h
      obtain ⟨e, he, hp, rfl⟩ : ∃ e ∈ entries, e.discard.prover = p.name ∧ e.run = r :=
        h.elim (hcold r) And.left
      exact ⟨e, ⟨he, hp⟩, rfl⟩
  rw [discardedRuns, (hruns _).dedup, hperm.length_eq, List.length_append, List.length_map]

end Runs

/-! ## 4. The report -/

section Report

variable {F : Type} {figures : List Json → Except AnalyzeError F} {fs fs' : FileSystem}
  {scan : Scan} {entries : List LoggedRun} {ctx : Context F}

/-- The runs of a prover that a report counts as cold; the stub counts none. -/
def Context.coldCounted (timings : List Series) : Context F → Prover → List MeasuredRun
  | .stub _, _ => []
  | .real _ _ _ _, p => firstRuns timings p

/-- The records that a report counts for a prover. -/
def Context.recordsCounted : Context F → Prover → List Json
  | .stub _, _ => []
  | .real _ _ _ discards, p => discards.filter (hasProver p)

/-- **The discards of a prover are counted exactly.** The report counts the records of the runs
    `logged`: no discarded run is missed, and none is counted both as cold and through a record. -/
structure CountedExactly (timings : List Series) (entries : List LoggedRun) (ctx : Context F)
    (p : Prover) (logged : List LoggedRun) : Prop where
  count : ctx.m1Discarded p = discardedRuns entries p
  records : (ctx.recordsCounted p).Perm (logged.map LoggedRun.record)
  once : logged.Nodup
  made : ∀ e ∈ logged, e ∈ entries ∧ e.discard.prover = p.name
  missed : ∀ e ∈ entries, e.discard.prover = p.name → e.run ∈ ctx.coldCounted timings p ∨ e ∈ logged
  twice : ∀ e ∈ logged, e.run ∉ ctx.coldCounted timings p

/-- Every run counted as cold is counted once, and was logged for its prover. -/
theorem coldCounted_logged {timings : List Series} {p : Prover} (hone : OnePerRun timings entries)
    (hfiles : (timings.map Series.file).Nodup) : (ctx.coldCounted timings p).Nodup ∧
      ∀ r ∈ ctx.coldCounted timings p, ∃ e ∈ entries, e.discard.prover = p.name ∧ e.run = r := by
  cases ctx with
  | stub discards => exact ⟨List.nodup_nil, fun r hr => absurd hr List.not_mem_nil⟩
  | real m1 m5 days discards =>
    exact ⟨nodup_firstRuns hfiles, fun r hr => logged_of_mem_firstRuns hone hr⟩

/-- **The count is exact when the records counted are those of the runs not counted as cold.** -/
theorem countedExactly_iff {timings : List Series} {p : Prover} (hone : OnePerRun timings entries)
    (hfiles : (timings.map Series.file).Nodup)
    (hcount : ctx.m1Discarded p =
      (ctx.coldCounted timings p).length + (ctx.recordsCounted p).length) :
    (∃ logged, CountedExactly timings entries ctx p logged) ↔ (ctx.recordsCounted p).Perm
      ((otherRuns entries p (ctx.coldCounted timings p)).map LoggedRun.record) := by
  obtain ⟨hnd, hcold⟩ := @coldCounted_logged F entries ctx timings p hone hfiles
  have hmem : ∀ e, e ∈ otherRuns entries p (ctx.coldCounted timings p) ↔
      e ∈ entries ∧ e.discard.prover = p.name ∧ e.run ∉ ctx.coldCounted timings p := by
    intro e
    rw [otherRuns, List.mem_filter, decide_eq_true_eq]
  have honce : (otherRuns entries p (ctx.coldCounted timings p)).Nodup :=
    hone.distinct.of_map.filter _
  constructor
  · intro h
    obtain ⟨logged, h⟩ := h
    have hsame : logged.Perm (otherRuns entries p (ctx.coldCounted timings p)) := by
      refine (List.perm_ext_iff_of_nodup h.once honce).mpr fun e => ?_
      rw [hmem]
      constructor
      · intro he
        exact ⟨(h.made e he).1, (h.made e he).2, h.twice e he⟩
      · intro he
        exact (h.missed e he.1 he.2.1).resolve_left he.2.2
    exact h.records.trans (hsame.map _)
  · intro hrecords
    refine ⟨_, ?_, hrecords, honce, fun e he => ⟨((hmem e).mp he).1, ((hmem e).mp he).2.1⟩,
      fun e he hp => or_iff_not_imp_left.mpr fun hc => (hmem e).mpr ⟨he, hp, hc⟩,
      fun e he => ((hmem e).mp he).2.2⟩
    rw [hcount, discardedRuns_eq hone.distinct hnd hcold, hrecords.length_eq, List.length_map]

/-- The records for a prover of the log beside the results directory. -/
def rootRecords (fs : FileSystem) (p : Prover) : List Json :=
  ((loadDiscards (fs.read rootLogPath)).getD []).filter (hasProver p)

/-- With runs to report, the log beside the results directory holds for each prover one record for
    each discarded run that is no first run, and no other one; with none, no run was discarded. -/
def Accounted (scan : Scan) (entries : List LoggedRun) (fs : FileSystem) : Prop :=
  ∀ p, if Measured scan.timings then
      (rootRecords fs p).Perm
        ((otherRuns entries p (firstRuns scan.timings p)).map LoggedRun.record)
    else ∀ e ∈ entries, e.discard.prover ≠ p.name

/-- What the report counts after a history. -/
theorem buildContext_logRuns (hscan : scanResults fs resultsDir = .ok scan)
    (hlog : logRuns entries fs = .ok fs') (hctx : buildContext figures fs' resultsDir = .ok ctx) :
    ∃ discards, loadDiscards (fs.read rootLogPath) = some discards ∧
      if Measured scan.timings then ∃ m1 m5 days, ctx = .real m1 m5 days discards ∧
        ∀ p, (m1.get p).nDiscarded = coldRuns scan.timings p + records discards p
      else ctx = .stub discards := by
  obtain ⟨hscan', hread⟩ := logRuns_frame hlog
  unfold buildContext at hctx
  split_ifs at hctx
  obtain ⟨scan', h1, hctx⟩ := bind_eq_ok.mp hctx
  obtain rfl := Except.ok.inj (hscan.symm.trans (hscan'.symm.trans h1))
  obtain ⟨discards, hload, hreport⟩ := reportOf_ok hctx
  refine ⟨discards, ?_, hreport⟩
  rw [← hread]
  exact hload

/-- **The count of a report** is that of the runs and the records it counts. -/
theorem m1Discarded_eq (hscan : scanResults fs resultsDir = .ok scan)
    (hlog : logRuns entries fs = .ok fs') (hctx : buildContext figures fs' resultsDir = .ok ctx)
    (p : Prover) : ctx.m1Discarded p =
      (ctx.coldCounted scan.timings p).length + (ctx.recordsCounted p).length := by
  obtain ⟨discards, -, h⟩ := buildContext_logRuns hscan hlog hctx
  split_ifs at h
  · obtain ⟨m1, m5, days, rfl, hm1⟩ := h
    rw [Context.coldCounted, Context.recordsCounted, length_firstRuns,
      ← List.countP_eq_length_filter]
    exact hm1 p
  · rw [h]
    rfl

/-- **A report is exact exactly when the log beside the results directory holds the records of the
    discarded runs that are no first runs.** -/
theorem reported_iff (hscan : scanResults fs resultsDir = .ok scan)
    (hone : OnePerRun scan.timings entries) (hlog : logRuns entries fs = .ok fs')
    (hctx : buildContext figures fs' resultsDir = .ok ctx) :
    (∀ p, ∃ logged, CountedExactly scan.timings entries ctx p logged) ↔
      Accounted scan entries fs := by
  refine forall_congr' fun p => ?_
  rw [countedExactly_iff hone (scanResults_files hscan) (m1Discarded_eq hscan hlog hctx p)]
  obtain ⟨discards, hload, h⟩ := buildContext_logRuns hscan hlog hctx
  by_cases hm : Measured scan.timings
  · rw [if_pos hm] at h ⊢
    obtain ⟨m1, m5, days, rfl, -⟩ := h
    rw [rootRecords, hload]
    rfl
  · rw [if_neg hm] at h ⊢
    rw [h, Context.recordsCounted, Context.coldCounted, List.nil_perm, List.map_eq_nil_iff,
      otherRuns, List.filter_eq_nil_iff]
    simp

end Report

/-! ## 5. Two series -/

section Sample

/-- The path of a series of eleven runs. -/
def samplePath (p : Prover) : Path := resultsDir ++ [p.name ++ "_v0.1_a.timing.json".toList]

def sampleTiming : List Char :=
  "\x7b\"results\":[\x7b\"times\":[1,1,1,1,1,1,1,1,1,1,1]\x7d]\x7d".toList

/-- A results directory with one series of each prover, and no log. -/
def sampleFiles : FileSystem where
  dirs := [resultsDir]
  files := [(samplePath .sp1, sampleTiming), (samplePath .stwo, sampleTiming)]
  nodup := by decide

def sampleRun (run : MeasuredRun) (p : Prover) (reason : DiscardReason) : LoggedRun :=
  ⟨run, ⟨2026, 5, 14, 11, 37, 25⟩, ⟨['a'], p.name, .enum reason, [], ['a']⟩⟩

/-- The first runs. -/
def sampleFirsts : List LoggedRun :=
  [sampleRun (.first (samplePath .sp1)) .sp1 .coldCache,
    sampleRun (.first (samplePath .stwo)) .stwo .coldCache]

/-- The first runs, and one too hot. -/
def sampleThermal : List LoggedRun := sampleFirsts ++ [sampleRun (.other 0) .sp1 .thermal]

/-- What matters of the scan: the series, and that they are not empty. -/
theorem scanResults_sample : ∃ scan, scanResults sampleFiles resultsDir = .ok scan ∧
    (scan.timings.map fun s => (s.prover, s.file, s.samples.length)) =
      [(.sp1, samplePath .sp1, 11), (.stwo, samplePath .stwo, 11)] := by
  have h : ((scanResults sampleFiles resultsDir).toOption.map fun scan =>
      scan.timings.map fun s => (s.prover, s.file, s.samples.length)) =
        some [(.sp1, samplePath .sp1, 11), (.stwo, samplePath .stwo, 11)] := by decide +kernel
  obtain ⟨scan, hscan, e⟩ := Option.map_eq_some_iff.mp h
  exact ⟨scan, toOption_eq_some.mp hscan, e⟩

theorem onePerRun_sample {timings : List Series} {entries : List LoggedRun}
    (h : (timings.map fun s => (s.prover, s.file, s.samples.length)) =
      [(.sp1, samplePath .sp1, 11), (.stwo, samplePath .stwo, 11)])
    (hdistinct : (entries.map LoggedRun.run).Nodup) (hfirsts : ∀ e ∈ sampleFirsts, e ∈ entries) :
    OnePerRun timings entries := by
  refine ⟨hdistinct, fun s hs _ => ?_⟩
  have hmem : (s.prover, s.file, s.samples.length) ∈
      [(Prover.sp1, samplePath .sp1, 11), (.stwo, samplePath .stwo, 11)] :=
    h ▸ List.mem_map_of_mem hs
  simp only [List.mem_cons, Prod.mk.injEq, List.not_mem_nil, or_false] at hmem
  rcases hmem with ⟨hp, hfile, -⟩ | ⟨hp, hfile, -⟩
  · exact ⟨_, hfirsts _ List.mem_cons_self, by rw [hfile]; rfl, by rw [hp]; rfl, rfl⟩
  · exact ⟨_, hfirsts _ (List.mem_cons_of_mem _ List.mem_cons_self), by rw [hfile]; rfl,
      by rw [hp]; rfl, rfl⟩

/-- A history and the report behind it, without the figures. -/
def reportAfter (entries : List LoggedRun) (fs : FileSystem) :
    Option (FileSystem × Context Unit) := do
  let fs' ← (logRuns entries fs).toOption
  let ctx ← (buildContext (fun _ => .ok ()) fs' resultsDir).toOption
  return (fs', ctx)

theorem exists_reportAfter {entries : List LoggedRun} {fs : FileSystem} {n : ℕ}
    (h : ((reportAfter entries fs).map fun r => r.2.m1Discarded .sp1) = some n) :
    ∃ fs' ctx, logRuns entries fs = .ok fs' ∧
      buildContext (fun _ => .ok ()) fs' resultsDir = .ok ctx ∧ ctx.m1Discarded .sp1 = n := by
  obtain ⟨⟨fs', ctx⟩, h, hn⟩ := Option.map_eq_some_iff.mp h
  obtain ⟨fs1, h1, h⟩ := Option.bind_eq_some_iff.mp h
  obtain ⟨ctx1, h2, h⟩ := Option.bind_eq_some_iff.mp h
  cases h
  exact ⟨fs', ctx, toOption_eq_some.mp h1, toOption_eq_some.mp h2, hn⟩

theorem reported_iff_sample : ∃ scan fs', ∃ ctx : Context Unit,
    scanResults sampleFiles resultsDir = .ok scan ∧ logRuns sampleFirsts sampleFiles = .ok fs' ∧
      buildContext (fun _ => .ok ()) fs' resultsDir = .ok ctx ∧
      ((∀ p, ∃ logged, CountedExactly scan.timings sampleFirsts ctx p logged) ↔
        Accounted scan sampleFirsts sampleFiles) := by
  obtain ⟨scan, hscan, hkeys⟩ := scanResults_sample
  obtain ⟨fs', ctx, hlog, hctx, -⟩ :=
    @exists_reportAfter sampleFirsts sampleFiles 1 (by decide +kernel)
  exact ⟨scan, fs', ctx, hscan, hlog, hctx, reported_iff hscan
    (onePerRun_sample hkeys (by decide) fun _ he => he) hlog hctx⟩

/-- A run too hot: its record is in results/discards.log, the report does not count it. -/
theorem thermal_missed : ∃ scan fs', ∃ ctx : Context Unit,
    scanResults sampleFiles resultsDir = .ok scan ∧ OnePerRun scan.timings sampleThermal ∧
      logRuns sampleThermal sampleFiles = .ok fs' ∧
      buildContext (fun _ => .ok ()) fs' resultsDir = .ok ctx ∧
      ctx.m1Discarded .sp1 = 1 ∧ discardedRuns sampleThermal .sp1 = 2 := by
  obtain ⟨scan, hscan, hkeys⟩ := scanResults_sample
  obtain ⟨fs', ctx, hlog, hctx, hn⟩ :=
    @exists_reportAfter sampleThermal sampleFiles 1 (by decide +kernel)
  exact ⟨scan, fs', ctx, hscan,
    onePerRun_sample hkeys (by decide) fun _ he => List.mem_append_left _ he, hlog, hctx, hn,
    by decide⟩

end Sample

end GroverTax.Python
