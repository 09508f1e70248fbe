import BlockSync.Report
import Mathlib.Data.List.Basic

/-! What a report makes of one more file, by what is wrong with it: nothing, findings that are told,
or findings that are repaired. -/

namespace BlockSync.Report

variable {r : Report} {d : Disk} {file : Active}

def withFile (r : Report) : Report :=
  { r with summary := { r.summary with filesChecked := r.summary.filesChecked + 1 } }

theorem settle_of_clean (h : file.diagnostics = []) : r.settle d file = (r.withFile, d) := by
  simp only [settle, h, if_true, withFile]

theorem settle_of_told (hne : file.diagnostics ≠ [])
    (h : (r.autoFix && file.diagnostics.all Diagnostic.isFixable) = false) :
    r.settle d file = (r.withFile.tell file.path.text file.diagnostics, d) := by
  simp only [settle, if_neg hne, h, Bool.false_eq_true, if_false, withFile]

theorem settle_of_repaired (hne : file.diagnostics ≠ [])
    (h : (r.autoFix && file.diagnostics.all Diagnostic.isFixable) = true) {applied : Nat}
    {d' : Disk}
    (happly : Repair.apply d file.path (file.diagnostics.filterMap Diagnostic.fix) r.dryRun =
      (.ok applied, d')) :
    r.settle d file =
      (r.withFile.tellRepairs file.path.text (file.diagnostics.filterMap Diagnostic.fix)
        file.diagnostics.length applied, d') := by
  simp only [settle, if_neg hne, h, if_true, happly, withFile]

theorem settle_mode (r : Report) (d : Disk) (file : Active) :
    (r.settle d file).1.autoFix = r.autoFix ∧ (r.settle d file).1.dryRun = r.dryRun := by
  unfold settle
  dsimp only
  split
  next => exact ⟨rfl, rfl⟩
  next =>
    split
    next =>
      split
      next => exact ⟨rfl, rfl⟩
      next => exact ⟨rfl, rfl⟩
    next => exact ⟨rfl, rfl⟩

end BlockSync.Report
