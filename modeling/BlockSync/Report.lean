import BlockSync.Repair

/-! A run's report, written file by file. When a file ends, all its problems are repaired if that
is asked for and each can be; otherwise all of them are reported. -/

namespace BlockSync

inductive Level
  | info
  | fixed
  | warning
  | error
deriving DecidableEq, Repr

def Level.name : Level → Text
  | .info => "info"
  | .fixed => "fixed"
  | .warning => "warning"
  | .error => "error"

inductive ExitCode
  | success
  | fatal
  | noMatchingFiles
  | unfixableErrors
  | desynchronized
deriving DecidableEq, Repr

namespace ExitCode

def all : List ExitCode :=
  [.success, .fatal, .noMatchingFiles, .unfixableErrors, .desynchronized]

def code : ExitCode → Nat
  | .success => 0
  | .fatal => 1
  | .noMatchingFiles => 2
  | .unfixableErrors => 3
  | .desynchronized => 4

def name : ExitCode → Text
  | .success => "success"
  | .fatal => "fatal"
  | .noMatchingFiles => "noMatchingFiles"
  | .unfixableErrors => "unfixableErrors"
  | .desynchronized => "desynchronized"

end ExitCode

structure Summary where
  filesChecked : Nat
  filesFixed : Nat
  fixesApplied : Nat
  fixableErrors : Nat
  unfixableErrors : Nat
deriving DecidableEq, Repr

namespace Summary

def zero : Summary := ⟨0, 0, 0, 0, 0⟩

def exitCode (s : Summary) : ExitCode :=
  if 0 < s.unfixableErrors then .unfixableErrors
  else if 0 < s.fixableErrors then .desynchronized
  else .success

end Summary

/-- What is told about a file: a problem that stays, or a repair. -/
inductive Notice
  | problem (file : Text) (diagnostic : Diagnostic)
  | repair (level : Level) (file message : Text) (line : Nat)
deriving DecidableEq

namespace Notice

def level : Notice → Level
  | .problem _ diagnostic => if diagnostic.isFixable then .warning else .error
  | .repair level _ _ _ => level

def file : Notice → Text
  | .problem file _ => file
  | .repair _ file _ _ => file

def message : Notice → Text
  | .problem _ diagnostic => diagnostic.reason
  | .repair _ _ message _ => message

def line? : Notice → Option Nat
  | .problem _ diagnostic => diagnostic.line?
  | .repair _ _ _ line => some line

end Notice

/-- The file whose problems are being collected. -/
structure Active where
  path : Path
  diagnostics : List Diagnostic

structure Report where
  autoFix : Bool
  dryRun : Bool
  active : Option Active
  summary : Summary
  notices : List Notice

namespace Report

def new (autoFix dryRun : Bool) : Report :=
  ⟨autoFix, dryRun, none, .zero, []⟩

def start (r : Report) (path : Path) : Except Failure Report :=
  match r.active with
  | some active => .error (.misuse (.startWhileActive path.text active.path.text))
  | none => .ok { r with active := some ⟨path, []⟩ }

def push (r : Report) (diagnostic : Diagnostic) : Except Failure Report :=
  match r.active with
  | some active =>
    .ok
      { r with
        active := some { active with diagnostics := active.diagnostics ++ [diagnostic] } }
  | none => .error (.misuse .pushWithoutFile)

def tell (r : Report) (file : Text) (diagnostics : List Diagnostic) : Report :=
  let fixable := diagnostics.countP Diagnostic.isFixable
  { r with
    summary :=
      { r.summary with
        fixableErrors := r.summary.fixableErrors + fixable
        unfixableErrors := r.summary.unfixableErrors + (diagnostics.length - fixable) }
    notices := r.notices ++ diagnostics.map (.problem file) }

def repairNotice (dryRun : Bool) (file : Text) (fix : Fix) : Notice :=
  if dryRun then .repair .info file ("Would apply: " ++ fix.description) fix.line
  else .repair .fixed file fix.description fix.line

/-- Reports repairs: written ones as such, those of a dry run as problems that could be fixed. -/
def tellRepairs (r : Report) (file : Text) (fixes : List Fix) (problems applied : Nat) : Report :=
  { r with
    summary :=
      if r.dryRun then
        { r.summary with fixableErrors := r.summary.fixableErrors + problems }
      else
        { r.summary with
          filesFixed := r.summary.filesFixed + 1
          fixesApplied := r.summary.fixesApplied + applied }
    notices := r.notices ++ fixes.map (repairNotice r.dryRun file) }

def couldNotFix (path : Path) (failure : Failure) : Diagnostic :=
  .couldNotParse ("Could not fix '" ++ path.text ++ "': " ++ failure.message)

def settle (r : Report) (d : Disk) (file : Active) : Report × Disk :=
  let r := { r with summary := { r.summary with filesChecked := r.summary.filesChecked + 1 } }
  if file.diagnostics = [] then (r, d)
  else if r.autoFix && file.diagnostics.all Diagnostic.isFixable then
    let fixes := file.diagnostics.filterMap Diagnostic.fix
    match Repair.apply d file.path fixes r.dryRun with
    | (.ok applied, d) =>
      (r.tellRepairs file.path.text fixes file.diagnostics.length applied, d)
    | (.error failure, d) => (r.tell file.path.text [couldNotFix file.path failure], d)
  else (r.tell file.path.text file.diagnostics, d)

def finishFile (r : Report) (d : Disk) : Except Failure Report × Disk :=
  match r.active with
  | none => (.error (.misuse .endWithoutFile), d)
  | some file =>
    let (r, d) := settle { r with active := none } d file
    (.ok r, d)

def close (r : Report) : Except Failure Summary :=
  match r.active with
  | some active => .error (.misuse (.neverEnded active.path.text))
  | none => .ok r.summary

end Report

end BlockSync
