import BlockSync.Cache
import BlockSync.Checksum
import BlockSync.Options

/-! Checking declarations against the blocks that they point at. A declaration of a file is right
if that file has a block of the same id that points back and whose content has the recorded
checksum; a declaration of a remote resource records the self checksum of its own block. -/

namespace BlockSync.Check

structure Declaration where
  id : Text
  marker : Marker
  line : Nat
  target : Target

/-- The block of the same id in the file at `path`, if it points back at the file `info`. -/
def returnMarker? (cache : Cache) (info : FileInfo) (id path : Text) : Option Marker :=
  match cache.find? path with
  | none => none
  | some other =>
    match other.markers.find? id with
    | none => none
    | some marker =>
      if marker.targets.values.any fun t => t.kind.path?.any info.isAlias then some marker
      else none

def noReturnTag (d : Declaration) : Diagnostic :=
  .onLine .noReturnTag d.line (some d.id)
    ("No return tag named '" ++ d.id ++ "' in '" ++ d.target.reference ++ "'")

def Declaration.recorded (d : Declaration) : Text :=
  d.target.checksum.getD Checksum.absent

/-- The repair records the expected checksum. -/
def mismatchedChecksum (s : TagSyntax) (d : Declaration) (expected : Text) : Diagnostic :=
  let written := if expected = Checksum.absent then [] else expected
  let description :=
    "Updated checksum of '" ++ d.id ++ "' for '" ++ d.target.reference ++ "' to '" ++
      expected ++ "'"
  let reason :=
    "Checksum of '" ++ d.id ++ "' for '" ++ d.target.reference ++ "' is '" ++ d.recorded ++
      "' but '" ++ expected ++ "' was expected"
  ⟨some d.id, reason, .mismatchedChecksum, some (.ofLine d.line),
    (s.withChecksum? d.target.declaration written).map fun text =>
      .replace d.line text description d.target.declaration⟩

def checkChecksum (s : TagSyntax) (d : Declaration) (expected : Text) : Option Diagnostic :=
  if d.recorded = expected then none else some (mismatchedChecksum s d expected)

/-- The target has moved; the repair writes its new place and the block's self checksum. -/
def pendingMigration (s : TagSyntax) (d : Declaration) (moved : Text) : Diagnostic :=
  let description :=
    "Migrated target of '" ++ d.id ++ "' from '" ++ d.target.reference ++ "' to '" ++ moved ++ "'"
  let reason :=
    "Target '" ++ d.target.reference ++ "' of '" ++ d.id ++ "' has moved to '" ++ moved ++ "'"
  ⟨some d.id, reason, .pendingMigration, some (.ofLine d.line),
    (s.withTarget? d.target.declaration moved d.marker.selfChecksum).map fun text =>
      .replace d.line text description d.target.declaration⟩

def checkFileTarget (o : Options) (cache : Cache) (info : FileInfo) (d : Declaration)
    (path : Text) : Option Diagnostic :=
  match o.migrations.resolveTarget (.ofText info.root) path with
  | some moved =>
    if o.migrations.mode = .all then some (pendingMigration o.tagSyntax d moved)
    else
      match returnMarker? cache info d.id path with
      | some other => checkChecksum o.tagSyntax d other.contentChecksum
      | none => some (pendingMigration o.tagSyntax d moved)
  | none =>
    match returnMarker? cache info d.id path with
    | some other => checkChecksum o.tagSyntax d other.contentChecksum
    | none => some (noReturnTag d)

def checkDeclaration (o : Options) (cache : Cache) (info : FileInfo) (d : Declaration) :
    Option Diagnostic :=
  match d.target.kind with
  | .file path => checkFileTarget o cache info d path
  | .remote _ => checkChecksum o.tagSyntax d d.marker.selfChecksum

/-- Whether a problem is a missing target file that a migration takes care of. -/
def migrates (o : Options) (info : FileInfo) (problem : Diagnostic) : Bool :=
  problem.problem == .fileDoesNotExist &&
    (do
      let marker ← info.markers.find? (← problem.id)
      let target ← marker.targets.find? (← problem.line?)
      o.migrations.resolveTarget (.ofText info.root) (← target.kind.path?)).isSome

def declarations (info : FileInfo) : List Declaration :=
  info.markers.entries.flatMap fun (id, marker) =>
    marker.targets.entries.map fun (line, target) => ⟨id, marker, line, target⟩

/-- All that is wrong with a file, by line; what has no place comes first. -/
def checkFile (o : Options) (cache : Cache) (info : FileInfo) : List Diagnostic :=
  let parsed := info.problems.filter (!migrates o info ·)
  let checked := (declarations info).filterMap (checkDeclaration o cache info)
  (parsed ++ checked).mergeSort fun a b => a.line?.getD 0 ≤ b.line?.getD 0

structure FileReport where
  path : Text
  diagnostics : List Diagnostic
deriving DecidableEq

/-- What is wrong with each file that may be repaired, in path order. -/
def check (o : Options) (cache : Cache) : List FileReport :=
  cache.writable.map fun (path, info) => ⟨path, checkFile o cache info⟩

end BlockSync.Check
