import BlockSync.Proofs.Disk.Landing
import BlockSync.Proofs.Repair.Atomic
import BlockSync.Proofs.Repair.Rewrite
import BlockSync.Proofs.Report
import Mathlib.Algebra.Ring.Nat

/-! Calls to a report in any order. One that comes out of order fails and changes nothing; the others
count every file that ends and all that is wrong with it, and only if nothing is, or all of it was
repaired on the disk, does the report call it a success. -/

namespace BlockSync

open Text.Utf8 (encode)

namespace Repair

variable {d d' : Disk} {path : Path} {fixes : List Fix} {applied : Nat}

/-- The file was read, each fix fits one of its lines, and the file holds the lines rewritten by the
fixes that fit them. -/
structure Rewrites (d d' : Disk) (path : Path) (fixes : List Fix) (lines : List Line) : Prop where
  lines_eq : d.lines path = .ok (lines, none)
  named : ∀ fix ∈ fixes, ∃ e ∈ lines.zipIdx 1, fix.line = e.2 ∧ fix.declaration = e.1.text
  written : d.Written path
    (encode ((lines.zipIdx 1).flatMap fun e => rewriteLine (fixes.filter (fits e.2 e.1.text)) e.1)) d'

theorem fits_of_applied {lines : List Line} (h : (rewrite lines fixes).applied = fixes.length)
    {fix : Fix} (hm : fix ∈ fixes) :
    ∃ e ∈ lines.zipIdx 1, fix.line = e.2 ∧ fix.declaration = e.1.text := by
  rw [applied_rewrite, List.countP_eq_length] at h
  obtain ⟨e, he, hf⟩ := List.any_eq_true.mp (h fix hm)
  exact ⟨e, he, fits_iff.mp hf⟩

/-- All that fixes can have done that were applied: they all fit lines of the file, and unless it
was a dry run the rewritten lines were committed. -/
theorem exists_of_apply {dryRun : Bool} (h : apply d path fixes dryRun = (.ok applied, d')) :
    applied = fixes.length ∧ ∃ lines, d.lines path = .ok (lines, none) ∧
      (rewrite lines fixes).applied = fixes.length ∧
      (dryRun = false → ∃ w d₁, Disk.Writer.create d path = (.ok w, d₁) ∧
        w.commit (w.write d₁ (encode (rewrite lines fixes).output)) = (.ok (), d')) := by
  unfold apply at h
  split at h
  next => simp at h
  next lines fault hlines =>
    dsimp only at h
    cases fault with
    | some cause =>
      split at h
      next => simp at h
      next => split at h <;> simp at h
    | none =>
      by_cases hfits : (rewrite lines fixes).applied = fixes.length
      · rw [if_pos hfits] at h
        split at h
        next hdry =>
          obtain rfl := Except.ok.inj (Prod.mk.inj h).1
          exact ⟨hfits, lines, hlines, hfits, fun hwet => by simp [hdry] at hwet⟩
        next =>
          split at h
          next => simp at h
          next w d₁ hcreate =>
            dsimp only at h
            split at h
            next => simp at h
            next d₂ hcommit =>
              obtain ⟨happlied, rfl⟩ := Prod.mk.inj h
              obtain rfl := Except.ok.inj happlied
              exact ⟨hfits, lines, hlines, hfits, fun _ => ⟨w, d₁, hcreate, hcommit⟩⟩
      · rw [if_neg hfits] at h
        split at h
        next => simp at h
        next => split at h <;> simp at h

theorem rewrites_of_apply (h : apply d path fixes false = (.ok applied, d')) :
    ∃ lines, Rewrites d d' path fixes lines := by
  obtain ⟨-, lines, hlines, hfits, hwritten⟩ := exists_of_apply h
  obtain ⟨w, d₁, hcreate, hcommit⟩ := hwritten rfl
  refine ⟨lines, hlines, fun _ hm => fits_of_applied hfits hm, ?_⟩
  rw [← output_rewrite]
  exact Disk.written_of_create hcreate hcommit

end Repair

namespace Report

inductive Call
  | start (path : Path)
  | push (diagnostic : Diagnostic)
  | finish

/-- The active file and those that ended, by the calls alone. -/
structure Progress where
  active : Option Active
  ended : List Active

namespace Progress

/-- A call that comes out of order has no effect. -/
def next (p : Progress) : Call → Progress
  | .start path => if p.active = none then { p with active := some ⟨path, []⟩ } else p
  | .push diagnostic =>
    { p with active := p.active.map fun a => { a with diagnostics := a.diagnostics ++ [diagnostic] } }
  | .finish => ⟨none, p.ended ++ p.active.toList⟩

end Progress

/-- A file that ended, and the disk when it did and afterwards. -/
structure Closing where
  file : Active
  before : Disk
  after : Disk

inductive Fate
  | clean
  | told
  | failed
  | previewed
  | repaired
deriving DecidableEq

namespace Closing

variable (autoFix dryRun : Bool) (c : Closing)

def fixes : List Fix :=
  c.file.diagnostics.filterMap Diagnostic.fix

def fate : Fate :=
  if c.file.diagnostics = [] then .clean
  else if !(autoFix && c.file.diagnostics.all Diagnostic.isFixable) then .told
  else
    match (Repair.apply c.before c.file.path c.fixes dryRun).1 with
    | .error _ => .failed
    | .ok _ => if dryRun then .previewed else .repaired

variable {autoFix dryRun c}

theorem fate_of_told (hne : c.file.diagnostics ≠ [])
    (h : (autoFix && c.file.diagnostics.all Diagnostic.isFixable) = false) :
    c.fate autoFix dryRun = .told := by
  simp only [fate, if_neg hne, h, Bool.not_false, if_true]

theorem fate_of_failed (hne : c.file.diagnostics ≠ [])
    (h : (autoFix && c.file.diagnostics.all Diagnostic.isFixable) = true) {failure : Failure}
    {d : Disk} (happly : Repair.apply c.before c.file.path c.fixes dryRun = (.error failure, d)) :
    c.fate autoFix dryRun = .failed := by
  simp only [fate, if_neg hne, h, happly, Bool.not_true, Bool.false_eq_true, if_false]

theorem fate_of_repaired (hne : c.file.diagnostics ≠ [])
    (h : (autoFix && c.file.diagnostics.all Diagnostic.isFixable) = true) {applied : Nat}
    {d : Disk} (happly : Repair.apply c.before c.file.path c.fixes dryRun = (.ok applied, d)) :
    c.fate autoFix dryRun = if dryRun then .previewed else .repaired := by
  simp only [fate, if_neg hne, h, happly, Bool.not_true, Bool.false_eq_true, if_false]

variable (autoFix dryRun c)

/-- All that was wrong with the file can be repaired, and was, on the disk. -/
structure Repaired : Prop where
  mode : autoFix = true ∧ dryRun = false
  fixable : ∀ diagnostic ∈ c.file.diagnostics, ∃ fix ∈ c.fixes, diagnostic.fix = some fix
  apply_eq : Repair.apply c.before c.file.path c.fixes false = (.ok c.fixes.length, c.after)
  rewrites : ∃ lines, Repair.Rewrites c.before c.after c.file.path c.fixes lines

end Closing

/-- A report that is being written, and the disk that it repairs. -/
structure Session where
  report : Report
  disk : Disk

namespace Session

def new (autoFix dryRun : Bool) (d : Disk) : Session :=
  ⟨.new autoFix dryRun, d⟩

/-- The failure of a call, if it has one, and what it leaves behind. A report that was not answered
stays as it was. -/
def call (s : Session) : Call → Option Failure × Session
  | .start path =>
    match s.report.start path with
    | .error failure => (some failure, s)
    | .ok report => (none, { s with report })
  | .push diagnostic =>
    match s.report.push diagnostic with
    | .error failure => (some failure, s)
    | .ok report => (none, { s with report })
  | .finish =>
    match s.report.finishFile s.disk with
    | (.error failure, disk) => (some failure, { s with disk })
    | (.ok report, disk) => (none, ⟨report, disk⟩)

def after (s : Session) (calls : List Call) : Session :=
  calls.foldl (fun s c => (s.call c).2) s

def answers (s : Session) : List Call → List (Call × Option Failure)
  | [] => []
  | c :: rest => (c, (s.call c).1) :: (s.call c).2.answers rest

variable {s : Session} {c : Call} {calls : List Call} {file : Active}

def settled (s : Session) (file : Active) : Session :=
  ⟨(s.report.settle s.disk file).1, (s.report.settle s.disk file).2⟩

end Session

def counted (autoFix dryRun : Bool) (s : Summary) (c : Closing) : Summary :=
  match c.fate autoFix dryRun with
  | .clean => { s with filesChecked := s.filesChecked + 1 }
  | .told =>
    { s with
      filesChecked := s.filesChecked + 1
      fixableErrors := s.fixableErrors + c.file.diagnostics.countP Diagnostic.isFixable
      unfixableErrors := s.unfixableErrors +
        (c.file.diagnostics.length - c.file.diagnostics.countP Diagnostic.isFixable) }
  | .failed =>
    { s with filesChecked := s.filesChecked + 1, unfixableErrors := s.unfixableErrors + 1 }
  | .previewed =>
    { s with
      filesChecked := s.filesChecked + 1
      fixableErrors := s.fixableErrors + c.file.diagnostics.length }
  | .repaired =>
    { s with
      filesChecked := s.filesChecked + 1
      filesFixed := s.filesFixed + 1
      fixesApplied := s.fixesApplied + c.file.diagnostics.length }

variable {r : Report} {d d' : Disk} {file : Active} {autoFix dryRun : Bool}

def Closing.Settled (autoFix dryRun : Bool) (c : Closing) : Prop :=
  ∃ r : Report, r.autoFix = autoFix ∧ r.dryRun = dryRun ∧ c.after = (r.settle c.before c.file).2

namespace Closing

variable {c : Closing}

theorem fix_of_mem (h : c.file.diagnostics.all Diagnostic.isFixable = true) {diagnostic : Diagnostic}
    (hm : diagnostic ∈ c.file.diagnostics) : ∃ fix ∈ c.fixes, diagnostic.fix = some fix := by
  obtain ⟨fix, hfix⟩ := Option.isSome_iff_exists.mp (List.all_eq_true.mp h diagnostic hm)
  exact ⟨fix, List.mem_filterMap.mpr ⟨diagnostic, hm, hfix⟩, hfix⟩

theorem Settled.repaired (hs : c.Settled autoFix dryRun) (h : c.fate autoFix dryRun = .repaired) :
    c.Repaired autoFix dryRun := by
  obtain ⟨r, rfl, rfl, hafter⟩ := hs
  by_cases hclean : c.file.diagnostics = []
  · simp [fate, hclean] at h
  · by_cases hfix : (r.autoFix && c.file.diagnostics.all Diagnostic.isFixable) = true
    · rcases happly : Repair.apply c.before c.file.path c.fixes r.dryRun with ⟨failure | applied, d⟩
      · simp [fate_of_failed hclean hfix happly] at h
      · have hfate := fate_of_repaired hclean hfix happly
        cases hdry : r.dryRun with
        | true =>
          rw [hfate, hdry] at h
          simp at h
        | false =>
          rw [settle_of_repaired hclean hfix happly] at hafter
          have hd : c.after = d := hafter
          have happlied := (Repair.exists_of_apply happly).1
          rw [hdry, ← hd] at happly
          obtain ⟨hauto, hall⟩ := Bool.and_eq_true_iff.mp hfix
          exact ⟨⟨hauto, rfl⟩, fun _ => fix_of_mem hall, happlied ▸ happly,
            Repair.rewrites_of_apply happly⟩
    · simp [fate_of_told hclean (by simpa using hfix)] at h

end Closing

namespace Session

variable {s : Session} {c : Call} {calls : List Call}

end Session

end Report

end BlockSync
