import BlockSync.Cache.Build
import BlockSync.Cache.Stored
import BlockSync.Check
import BlockSync.Enumerate
import BlockSync.Report

/-! A run from paths to a report. A cache to be read takes the place of a scan, and one to be
written takes the place of a check. -/

namespace BlockSync

structure Outcome where
  exitCode : ExitCode
  summary : Summary
  notices : List Notice
deriving DecidableEq

namespace Run

/-- Scans all files of the paths, if there are any. -/
def scan? (d : Disk) (o : Options) (paths : List Path) : Except Failure (Option Cache) :=
  (Enumerate.enumerate d o paths).map fun files =>
    if files.isEmpty then none else some (Cache.build d o files)

/-- The cache to be read, or that of a scan. -/
def cache? (d : Disk) (o : Options) (paths : List Path) : Except Failure (Option Cache) :=
  match o.cache with
  | some (path, .read) => (Cache.load d path).map some
  | _ => scan? d o paths

def settleAll (r : Report) (d : Disk) : List Check.FileReport → Report × Disk
  | [] => (r, d)
  | file :: rest =>
    let (r, d) := r.settle d ⟨.ofText file.path, file.diagnostics⟩
    settleAll r d rest

/-- Checks what was scanned, and repairs what can be if that is asked for. -/
def settle (d : Disk) (o : Options) (cache : Cache) : Outcome × Disk :=
  let (r, d) := settleAll (.new o.autoFix o.dryRun) d (Check.check o cache)
  (⟨r.summary.exitCode, r.summary, r.notices⟩, d)

end Run

def run (d : Disk) (o : Options) (paths : List Path) : Except Failure Outcome × Disk :=
  match Run.cache? d o paths with
  | .error failure => (.error failure, d)
  | .ok none => (.ok ⟨.noMatchingFiles, .zero, []⟩, d)
  | .ok (some cache) =>
    match o.cache with
    | some (path, .write) =>
      match cache.save d path with
      | (.error failure, d) => (.error failure, d)
      | (.ok (), d) => (.ok ⟨.success, .zero, []⟩, d)
    | _ =>
      let (outcome, d) := Run.settle d o cache
      (.ok outcome, d)

end BlockSync
