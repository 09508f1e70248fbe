import BlockSync.Block
import BlockSync.Cache
import BlockSync.Checksum
import BlockSync.Disk
import BlockSync.Options

/-! Scanning a file: its blocks become markers, what is wrong with them becomes diagnostics, and
the files that it points at are noted to be scanned next. -/

namespace BlockSync.Scan

/-- The nearest directory above the file that holds the marker, or else the file's own. -/
def findRoot (d : Disk) (file : Path) (marker : Text) : Path :=
  let start := file.parent?.getD (.ofText ".")
  ((start :: start.ancestors).find? fun dir => d.present (dir.join marker)).getD start

/-- What a reference means in a file with this root. -/
def resolveTarget (d : Disk) (root : Path) (reference : Text) : Resolved :=
  if isRemote reference then ⟨.remote reference, true⟩
  else
    let path :=
      if reference.head? = some '/' then .ofText reference else root.join reference
    ⟨.file path.text, d.isFile path⟩

structure Scanned where
  info : FileInfo
  referenced : List Path
deriving DecidableEq

/-- What is known of the file whose blocks are being collected. -/
structure Setting where
  path : Path
  relative : Text
  allowEmpty : Bool

def targetsSelf (d : Disk) (path : Path) (target : Text) : Bool :=
  target == path.text ||
    match d.canonical (.ofText target) with
    | .ok found => found == path
    | .error _ => false

/-- Notes one declaration of a completed block. -/
def noteTarget (d : Disk) (path : Path) (id : Text) (s : Scanned) (line : Nat)
    (target : Target) : Scanned :=
  match target.kind with
  | .remote _ => s
  | .file text =>
    if targetsSelf d path text then
      { s with info := { s.info with problems := s.info.problems ++ [.selfTargeting line id] } }
    else
      let p := Path.ofText text
      if d.isFile p && !s.referenced.contains p then { s with referenced := s.referenced ++ [p] }
      else s

def markerOf (relative : Text) (b : Block) : Marker where
  contentChecksum := Checksum.content b.content
  selfChecksum := Checksum.self b.content relative
  commentStart := b.comment.opening
  commentEnd := b.comment.closing
  targets := b.targets

/-- Whether a block with declarations was already stored under the id. -/
def isDeclared (info : FileInfo) (id : Text) : Bool :=
  match info.markers.find? id with
  | some marker => !marker.targets.isEmpty
  | none => false

/-- Stores a completed block. One without declarations only tells that its id occurs. -/
def noteBlock (d : Disk) (at_ : Setting) (s : Scanned) (b : Block) : Scanned :=
  let marker := markerOf at_.relative b
  if b.targets.isEmpty then
    if s.info.markers.contains b.id then s
    else { s with info := { s.info with markers := s.info.markers.insert b.id marker } }
  else
    let s := b.targets.entries.foldl (fun s e => noteTarget d at_.path b.id s e.1 e.2) s
    let duplicate :=
      if isDeclared s.info b.id then [.duplicateMarker b.firstLine b.id] else []
    let empty :=
      if b.content.isEmpty && !at_.allowEmpty then [.emptyMarker b.firstLine b.id] else []
    { s with
      info :=
        { s.info with
          problems := s.info.problems ++ duplicate ++ empty
          markers := s.info.markers.insert b.id marker } }

def noteEvent (d : Disk) (at_ : Setting) (s : Scanned) : Block.Event → Scanned
  | .problem diagnostic =>
    { s with info := { s.info with problems := s.info.problems ++ [diagnostic] } }
  | .completed block => noteBlock d at_ s block

/-- A file that cannot be read to its end has one problem and nothing else. -/
def unreadable (path root : Path) (readOnly : Bool) (reason : Text) : Scanned :=
  let info := FileInfo.new path.text root.text readOnly
  ⟨{ info with
      problems := [.couldNotParse ("Could not parse '" ++ path.text ++ "': " ++ reason)] }, []⟩

/-- Scans the file at a path without links. A file that is only read points at nothing. -/
def scan (d : Disk) (o : Options) (path : Path) (readOnly : Bool) : Scanned :=
  let root := findRoot d path o.rootMarker
  match d.lines path with
  | .error cause => unreadable path root readOnly (Disk.Refusal.message ⟨path.text, cause⟩)
  | .ok (_, some cause) => unreadable path root readOnly cause.message
  | .ok (lines, none) =>
    let at_ : Setting := ⟨path, (path.relativeTo? root).getD path.text, o.allowEmptyTags⟩
    let events := Block.events o.tagSyntax (resolveTarget d root) (lines.map Line.raw)
    let s := events.foldl (noteEvent d at_) ⟨FileInfo.new path.text root.text readOnly, []⟩
    ⟨{ s.info with lineCount := some lines.length }, if readOnly then [] else s.referenced⟩

end BlockSync.Scan
