import BlockSync.Disk

/-! Replacing a file in one step. What is written goes to a temporary neighbour, which takes the
place of the file when the writer commits and goes away otherwise. -/

namespace BlockSync.Disk

open Text.Utf8 (Bytes)

/-- An error at a path. -/
structure Refusal where
  path : Text
  cause : Cause
deriving DecidableEq

def Refusal.message (r : Refusal) : Text :=
  "I/O error at " ++ r.path ++ ": " ++ r.cause.message

/-- The temporary file is written where it was opened, and put in its place by its name. -/
structure Writer where
  destination : Path
  path : Text
  opened : Place
deriving DecidableEq

namespace Writer

def temporaryName (stamp : Nat) (name : Text) : Text :=
  "." ++ name ++ "." ++ Text.ofNat stamp ++ ".tmp"

/-- The neighbour that is written first. -/
def temporaryPath (stamp : Nat) (p : Path) : Text :=
  let name := temporaryName stamp (p.fileName?.getD [])
  match p.fileName?, Text.cutLast '/' p.text with
  | some _, some (head, _) => head ++ '/' :: name
  | some _, none => name
  | none, _ =>
    if p.text = [] then name
    else if p.text.getLast? = some '/' then p.text ++ name
    else p.text ++ '/' :: name

def withParent (d : Disk) (p : Path) : Except Refusal Unit × Disk :=
  match p.parent? with
  | none => (.ok (), d)
  | some parent =>
    match d.makeDirectories parent with
    | (.ok (), d) => (.ok (), d)
    | (.error cause, d) => (.error ⟨parent.text, cause⟩, d)

/-- The mode of what the path leads to. -/
def mode? (d : Disk) (p : Path) : Option Mode :=
  match d.find p.text with
  | .ok (_, .file _ mode) => some mode
  | .ok (place, _) => some (d.modes.directory place)
  | .error _ => none

/-- Makes the directories above the path and the empty neighbour, which takes the mode of the file
to be replaced. Directories that were made stay even if the rest fails. -/
def create (d : Disk) (p : Path) : Except Refusal Writer × Disk :=
  match withParent d p with
  | (.error refusal, d) => (.error refusal, d)
  | (.ok (), d) =>
    let path := temporaryPath d.stamp p
    match d.truncate path with
    | .error cause => (.error ⟨path, cause⟩, d)
    | .ok (place, d) =>
      let d :=
        match mode? d p with
        | some mode => d.set place (.file [] mode)
        | none => d
      (.ok ⟨p, path, place⟩, d)

def write (w : Writer) (d : Disk) (bytes : Bytes) : Disk :=
  match d.entry? w.opened with
  | some (.file old mode) => d.set w.opened (.file (old ++ bytes) (d.modes.kept bytes mode))
  | _ => d

/-- Takes the neighbour away, or the link that bears its name. -/
def drop (w : Writer) (d : Disk) : Disk :=
  match d.spot false w.path with
  | .ok (.taken _ .directory) => d
  | .ok (.taken place _) => d.remove place
  | _ => d

/-- Where the neighbour goes. -/
def landing (w : Writer) (d : Disk) : Except Cause Place :=
  if w.destination.text ≠ [] ∧ w.destination.fileName? = none then .error .busy
  else
    match d.spot false w.destination.text with
    | .ok (.taken _ .directory) => .error .isDirectory
    | .ok (.taken place _) => .ok place
    | .ok (.free place) => .ok place
    | .error cause => .error cause

def commit (w : Writer) (d : Disk) : Except Refusal Unit × Disk :=
  match w.landing d, d.spot false w.path with
  | .ok own, .ok (.taken place entry) => (.ok (), (d.remove place).set own entry)
  | .ok _, _ => (.error ⟨w.destination.text, .notFound⟩, d)
  | .error cause, _ => (.error ⟨w.destination.text, cause⟩, w.drop d)

end Writer

/-- Puts content in the place of a file. -/
def replace (d : Disk) (p : Path) (bytes : Bytes) : Except Refusal Unit × Disk :=
  match Writer.create d p with
  | (.error refusal, d) => (.error refusal, d)
  | (.ok w, d) => w.commit (w.write d bytes)

end BlockSync.Disk
