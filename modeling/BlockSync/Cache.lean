import BlockSync.Diagnostic
import BlockSync.SortedMap
import BlockSync.Target

/-! What is known about each file, under every name that the file was met by. A file with several
names has one entry for each; all of them carry the same list of names, and only the one under
the path without links may be written. -/

namespace BlockSync

structure Marker where
  contentChecksum : Text
  selfChecksum : Text
  commentStart : Text
  commentEnd : Option Text
  targets : SortedMap Nat Target
deriving DecidableEq

structure FileInfo where
  readOnly : Bool
  aliases : List Text
  root : Text
  markers : SortedMap Text Marker
  problems : List Diagnostic
  lineCount : Option Nat
deriving DecidableEq

def FileInfo.new (path root : Text) (readOnly : Bool) : FileInfo :=
  ⟨readOnly, [path], root, ∅, [], none⟩

def FileInfo.isAlias (info : FileInfo) (path : Text) : Bool :=
  info.aliases.contains path

abbrev Cache := SortedMap Text FileInfo

namespace Cache

/-- The entries that may be repaired. -/
def writable (c : Cache) : List (Text × FileInfo) :=
  c.entries.filter (!·.2.readOnly)

/-- Makes `name` another name of the entry at `canonical`, if there is one. The new name gets a
copy that may not be written, and every name of the file learns the new list. -/
def addAlias (c : Cache) (canonical name : Text) : Cache :=
  if canonical = name then c
  else
    match c.find? canonical with
    | none => c
    | some entry =>
      let aliases := if entry.isAlias name then entry.aliases else entry.aliases ++ [name]
      let learned := c.map fun key info =>
        if key = canonical ∨ key ∈ aliases then { info with aliases } else info
      learned.insert name { entry with aliases, readOnly := true }

end Cache

end BlockSync
