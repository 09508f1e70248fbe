import BlockSync.Path
import BlockSync.SortedMap
import BlockSync.Text.Line

/-! A disk as a map from places to what stands there. A path is followed name by name; a symbolic
link puts its own names in front of those that are left, and at most forty are followed.

Names are Unicode texts, as raw bytes are made into texts before they get here. An entry is at one
place only, so there are no hard links, and nothing has an owner: the process may read and change
what it names, it belongs to the group of the files that it makes, and there is room for them. No
entry is changed by anyone else. A name that is not there yet may be too long to be made, and so may
the path that makes it; how long a path to something that is there may be is not told. -/

namespace BlockSync

open Text.Utf8 (Bytes)

/-- The names on the way from the top of the disk. -/
abbrev Place := List Text

namespace Disk

/-- The permission bits of a file, those of its group and of others below those of its owner, and
above them the sticky, set-group-ID and set-user-ID bits. -/
abbrev Mode := BitVec 12

inductive Entry
  | file (bytes : Bytes) (mode : Mode)
  | link (target : Text)
  | directory
deriving DecidableEq

/-- Why the disk refuses. -/
inductive Cause
  | notFound
  | busy
  | alreadyExists
  | notDirectory
  | isDirectory
  | nameTooLong
  | tooManyLinks
  | nulInName
  | notText
  | illFormed (fault : Text.Utf8.Fault)
deriving DecidableEq

def Cause.message : Cause → Text
  | .notFound => "No such file or directory (os error 2)"
  | .busy => "Device or resource busy (os error 16)"
  | .alreadyExists => "File exists (os error 17)"
  | .notDirectory => "Not a directory (os error 20)"
  | .isDirectory => "Is a directory (os error 21)"
  | .nameTooLong => "File name too long (os error 36)"
  | .tooManyLinks => "Too many levels of symbolic links (os error 40)"
  | .nulInName => "file name contained an unexpected NUL byte"
  | .notText => "stream did not contain valid UTF-8"
  | .illFormed fault => fault.message

/-- Where a path leads: to something, or to a free place in a directory. -/
inductive Spot
  | taken (place : Place) (entry : Entry)
  | free (place : Place)
deriving DecidableEq

/-- The modes of directories and of new files, and whether the process has the right to keep
set-user-ID and set-group-ID bits on what it writes. -/
structure Modes where
  directory : Place → Mode
  file : Mode
  lasting : Bool

namespace Modes

/-- Those of a process without special rights, and of what it makes under the usual mask. -/
def usual : Modes := ⟨fun _ => 0o755#12, 0o644#12, false⟩

/-- What writing to a file leaves of its mode. The set-group-ID bit only goes if the group may
execute the file. -/
def worn (m : Modes) (mode : Mode) : Mode :=
  if m.lasting then mode
  else if mode &&& 0o010#12 = 0 then mode &&& ~~~0o4000#12
  else mode &&& ~~~0o6000#12

/-- The mode of a file that gets these bytes. Nothing is written if there are none. -/
def kept (m : Modes) (bytes : Bytes) (mode : Mode) : Mode :=
  if bytes = [] then mode else m.worn mode

end Modes

end Disk

open Disk

/-- Relative paths start at `cwd`, and `stamp` marks the names of temporary files. -/
structure Disk where
  entries : SortedMap Place Entry
  cwd : Place
  stamp : Nat
  modes : Modes

namespace Disk

def maxLinks : Nat := 40

/-- How many bytes a name may have. -/
def maxName : Nat := 255

/-- How many bytes a path may have. -/
def maxPath : Nat := 4095

def entry? (d : Disk) (place : Place) : Option Entry :=
  if place = [] then some .directory else d.entries.find? place

def set (d : Disk) (place : Place) (entry : Entry) : Disk :=
  { d with entries := d.entries.insert place entry }

def remove (d : Disk) (place : Place) : Disk :=
  { d with entries := d.entries.erase place }

/-- Follows names from a place; `follow` goes on from where a link leads. A link in the last
position is followed only if asked. -/
def walkNames (d : Disk) (last : Bool) (follow : Place → List Text → Except Cause Spot) :
    Place → List Text → Except Cause Spot
  | here, [] =>
    match d.entry? here with
    | some entry => .ok (.taken here entry)
    | none => .error .notFound
  | here, name :: rest =>
    if d.entry? here ≠ some .directory then .error .notDirectory
    else if name = [] ∨ name = "." then walkNames d last follow here rest
    else if name = ".." then walkNames d last follow here.dropLast rest
    else
      match d.entry? (here ++ [name]) with
      | none =>
        if maxName < name.byteLength then .error .nameTooLong
        else if rest = [] then .ok (.free (here ++ [name]))
        else .error .notFound
      | some (.link target) =>
        if rest = [] ∧ !last then .ok (.taken (here ++ [name]) (.link target))
        else
          follow (if target.head? = some '/' then [] else here) (target.splitOn '/' ++ rest)
      | some _ => walkNames d last follow (here ++ [name]) rest

/-- Follows names and so many links. -/
def walk (d : Disk) (last : Bool) : Nat → Place → List Text → Except Cause Spot
  | 0 => d.walkNames last fun _ _ => .error .tooManyLinks
  | links + 1 => d.walkNames last (walk d last links)

def spot (d : Disk) (last : Bool) (path : Text) : Except Cause Spot :=
  if path = [] then .error .notFound
  else if '\x00' ∈ path then .error .nulInName
  else d.walk last maxLinks (if path.head? = some '/' then [] else d.cwd) (path.splitOn '/')

/-- What a path leads to in the end, which is no link. -/
def find (d : Disk) (path : Text) : Except Cause (Place × Entry) :=
  match d.spot true path with
  | .ok (.taken _ (.link _)) => .error .tooManyLinks
  | .ok (.taken place entry) => .ok (place, entry)
  | .ok (.free _) => .error .notFound
  | .error cause => .error cause

def present (d : Disk) (p : Path) : Bool :=
  match d.find p.text with
  | .ok _ => true
  | .error _ => false

def isDirectory (d : Disk) (p : Path) : Bool :=
  match d.find p.text with
  | .ok (_, .directory) => true
  | _ => false

def isFile (d : Disk) (p : Path) : Bool :=
  match d.find p.text with
  | .ok (_, .file _ _) => true
  | _ => false

def placeText (place : Place) : Text :=
  '/' :: Text.joinWith "/" place

/-- The path without links that leads to the same thing. -/
def canonical (d : Disk) (p : Path) : Except Cause Path :=
  (d.find p.text).map fun found => .ofText (placeText found.1)

/-- The lines of a file, as far as they can be read. A directory opens but does not read. -/
def lines (d : Disk) (p : Path) : Except Cause (List Line × Option Cause) :=
  match d.find p.text with
  | .ok (_, .file bytes _) =>
    let reading := Line.read bytes
    .ok (reading.lines, reading.fault.map .illFormed)
  | .ok _ => .ok ([], some .isDirectory)
  | .error cause => .error cause

/-- The whole text of a file. -/
def text (d : Disk) (p : Path) : Except Cause Text :=
  match d.find p.text with
  | .ok (_, .file bytes _) =>
    match Text.Utf8.decode bytes with
    | .ok text => .ok text
    | .error _ => .error .notText
  | .ok _ => .error .isDirectory
  | .error cause => .error cause

def makeDirectory (d : Disk) (p : Path) : Except Cause Disk :=
  if maxPath < p.text.byteLength then .error .nameTooLong
  else
    match d.spot false p.text with
    | .ok (.free place) => .ok (d.set place .directory)
    | .ok (.taken _ _) => .error .alreadyExists
    | .error cause => .error cause

/-- Makes a directory and those above it that are missing. What was made stays if the rest fails. -/
def makeDirectories (d : Disk) (p : Path) : Except Cause Unit × Disk :=
  climb p.text.length p
where
  climb : Nat → Path → Except Cause Unit × Disk
    | 0, _ => (.error .notFound, d)
    | n + 1, p =>
      match d.makeDirectory p with
      | .ok d => (.ok (), d)
      | .error .notFound =>
        match p.parent? with
        | none => (.error .notFound, d)
        | some q =>
          match climb n q with
          | (.error cause, d) => (.error cause, d)
          | (.ok (), d) =>
            match d.makeDirectory p with
            | .ok d => (.ok (), d)
            | .error cause => (if d.isDirectory p then .ok () else .error cause, d)
      | .error cause => (if d.isDirectory p then .ok () else .error cause, d)

/-- Opens a file for writing, empty. -/
def truncate (d : Disk) (path : Text) : Except Cause (Place × Disk) :=
  if maxPath < path.byteLength then .error .nameTooLong
  else
    match d.spot true path with
    | .ok (.taken _ .directory) => .error .isDirectory
    | .ok (.taken _ (.link _)) => .error .tooManyLinks
    | .ok (.taken place (.file _ mode)) => .ok (place, d.set place (.file [] (d.modes.worn mode)))
    | .ok (.free place) => .ok (place, d.set place (.file [] d.modes.file))
    | .error cause => .error cause

end Disk

end BlockSync
