import BlockSync.Proofs.Check.Convergence
import BlockSync.Proofs.Report
import BlockSync.Proofs.Run

/-! Checks and dry runs. Both only count what is wrong with each file, and as every fix of a file
whose findings can all be repaired applies, they come to the same numbers. -/

namespace BlockSync

open Cache (build)
open Check (FileReport check)

/-- The numbers once the findings of one more file are told. -/
def Summary.tallied (s : Summary) (diagnostics : List Diagnostic) : Summary :=
  { s with
    filesChecked := s.filesChecked + 1
    fixableErrors := s.fixableErrors + diagnostics.countP Diagnostic.isFixable
    unfixableErrors :=
      s.unfixableErrors + (diagnostics.length - diagnostics.countP Diagnostic.isFixable) }

namespace Report

variable {r : Report} {d : Disk} {file : Active}

/-- Settling the file does no more than count what is wrong with it. -/
structure Counts (r : Report) (d : Disk) (file : Active) : Prop where
  disk_eq : (r.settle d file).2 = d
  summary_eq : (r.settle d file).1.summary = r.summary.tallied file.diagnostics

theorem counts_of_clean (h : file.diagnostics = []) : r.Counts d file := by
  have hs : r.settle d file = (r.withFile, d) := settle_of_clean h
  constructor
  · rw [hs]
  · rw [hs, h]
    rfl

theorem counts_of_told (hne : file.diagnostics ≠ [])
    (h : (r.autoFix && file.diagnostics.all Diagnostic.isFixable) = false) : r.Counts d file := by
  have hs := settle_of_told (d := d) hne h
  constructor
  · rw [hs]
  · rw [hs]
    rfl

theorem counts_of_check (h : r.autoFix = false) : r.Counts d file := by
  by_cases hclean : file.diagnostics = []
  · exact counts_of_clean hclean
  · exact counts_of_told hclean (by rw [h, Bool.false_and])

theorem counts_of_dryRun (h : r.dryRun = true)
    (ha : file.diagnostics.all Diagnostic.isFixable = true →
      Repair.apply d file.path (file.diagnostics.filterMap Diagnostic.fix) true =
        (.ok (file.diagnostics.filterMap Diagnostic.fix).length, d)) : r.Counts d file := by
  by_cases hclean : file.diagnostics = []
  · exact counts_of_clean hclean
  · by_cases hfix : (r.autoFix && file.diagnostics.all Diagnostic.isFixable) = true
    · have hall := (Bool.and_eq_true_iff.mp hfix).2
      have hs := settle_of_repaired hclean hfix (h.symm ▸ ha hall)
      have hcount : file.diagnostics.countP Diagnostic.isFixable = file.diagnostics.length :=
        List.countP_eq_length.mpr (List.all_eq_true.mp hall)
      constructor
      · rw [hs]
      · have hdry : r.withFile.dryRun = true := h
        rw [hs, Summary.tallied, hcount, Nat.sub_self, Nat.add_zero, tellRepairs, hdry]
        rfl
    · exact counts_of_told hclean (by simpa using hfix)

end Report

namespace Run

variable {d : Disk} {o : Options} {files : List Path} {reports : List FileReport}

theorem settleAll_of_counts {r : Report}
    (h : ∀ file ∈ reports, ∀ r' : Report, r'.autoFix = r.autoFix → r'.dryRun = r.dryRun →
      r'.Counts d ⟨.ofText file.path, file.diagnostics⟩) :
    (settleAll r d reports).2 = d ∧ (settleAll r d reports).1.summary =
      reports.foldl (fun s file => s.tallied file.diagnostics) r.summary := by
  induction reports generalizing r with
  | nil => exact ⟨rfl, rfl⟩
  | cons file rest ih =>
    have hmode := r.settle_mode d ⟨.ofText file.path, file.diagnostics⟩
    have hfirst := h file (by simp) r rfl rfl
    have hrest := ih fun file' hm r' hauto hdry =>
      h file' (by simp [hm]) r' (hauto.trans hmode.1) (hdry.trans hmode.2)
    rw [hfirst.summary_eq] at hrest
    rw [settleAll]
    dsimp only
    rw [hfirst.disk_eq]
    exact hrest

/-- The fixes of a report of a check apply, if all of its findings can be repaired. -/
theorem apply_dryRun (hd : d.WellFormed) {file : FileReport}
    (hm : file ∈ check o (build d o files)) (hf : file.fixable = true) :
    Repair.apply d (.ofText file.path) file.fixes true = (.ok file.fixes.length, d) := by
  obtain ⟨place, lines, happly⟩ := Check.exists_applicable_of_mem_check hd hm hf
  exact happly.apply_dryRun

theorem settle_of_check (ho : o.autoFix = false) (cache : Cache) :
    (settle d o cache).2 = d ∧ (settle d o cache).1.summary =
      (check o cache).foldl (fun s file => s.tallied file.diagnostics) .zero :=
  settleAll_of_counts fun _ _ _ hauto _ => Report.counts_of_check (hauto.trans ho)

theorem settle_of_dryRun (hd : d.WellFormed) (ho : o.dryRun = true) (files : List Path) :
    (settle d o (build d o files)).2 = d ∧ (settle d o (build d o files)).1.summary =
      (check o (build d o files)).foldl (fun s file => s.tallied file.diagnostics) .zero :=
  settleAll_of_counts fun _ hm _ _ hdry =>
    Report.counts_of_dryRun (hdry.trans ho) fun hall => apply_dryRun hd hm hall

theorem scan?_mode (d : Disk) (o : Options) (autoFix dryRun : Bool) (paths : List Path) :
    scan? d { o with autoFix, dryRun } paths = scan? d o paths :=
  scan?_settings d o autoFix dryRun o.cache paths

theorem build_mode (d : Disk) (o : Options) (autoFix dryRun : Bool) (files : List Path) :
    build d { o with autoFix, dryRun } files = build d o files := rfl

/-- A check and a dry run of the repairs fail alike or come to the same numbers and exit code, and
neither changes anything on the disk. -/
theorem run_check_eq_dryRun (hd : d.WellFormed) (hc : o.cache = none) (paths : List Path) :
    (run d { o with autoFix := false } paths).2 = d ∧
      (run d { o with autoFix := true, dryRun := true } paths).2 = d ∧
      (run d { o with autoFix := false } paths).1.map (fun out => (out.summary, out.exitCode)) =
        (run d { o with autoFix := true, dryRun := true } paths).1.map fun out =>
          (out.summary, out.exitCode) := by
  rw [run_of_uncached (o := { o with autoFix := false }) hc,
    run_of_uncached (o := { o with autoFix := true, dryRun := true }) hc,
    scan?_mode d o false o.dryRun, scan?_mode d o true true]
  cases hs : scan? d o paths with
  | error failure => exact ⟨rfl, rfl, rfl⟩
  | ok scanned =>
    cases scanned with
    | none => exact ⟨rfl, rfl, rfl⟩
    | some cache =>
      obtain ⟨files, -, rfl⟩ := eq_build_of_scan? hs
      have hcheck := settle_of_check (d := d) (o := { o with autoFix := false }) rfl
        (build d o files)
      have hdry := settle_of_dryRun (o := { o with autoFix := true, dryRun := true }) hd rfl files
      rw [build_mode] at hdry
      have hsummary := hcheck.2.trans hdry.2.symm
      refine ⟨hcheck.1, hdry.1, ?_⟩
      simp only [Except.map, exitCode_settle, hsummary]

theorem run_check_eq_dryRun_staleDisk :
    let paths : List Path := [.ofText "/a", .ofText "/b"]
    let checked := run Check.staleDisk { Options.standard with autoFix := false } paths
    let tried := run Check.staleDisk { Options.standard with autoFix := true, dryRun := true } paths
    Check.staleDisk.WellFormed ∧ Options.standard.cache = none ∧ checked.2 = Check.staleDisk ∧
      tried.2 = Check.staleDisk ∧ checked.1.map (fun out => (out.summary, out.exitCode)) =
        tried.1.map fun out => (out.summary, out.exitCode) :=
  ⟨Check.staleDisk_wellFormed, rfl, run_check_eq_dryRun Check.staleDisk_wellFormed rfl _⟩

end Run

end BlockSync
