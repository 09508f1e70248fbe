import BlockSync.Text

/-! What a declaration points at: a file on this machine or a resource that is never fetched. -/

namespace BlockSync

inductive TargetKind
  | file (path : Text)
  | remote (url : Text)
deriving DecidableEq, Repr

def TargetKind.path? : TargetKind → Option Text
  | .file path => some path
  | .remote _ => none

/-- One declaration: what it points at and the line that it stands on, as written. -/
structure Target where
  reference : Text
  kind : TargetKind
  checksum : Option Text
  declaration : Text
deriving DecidableEq, Repr

/-- What a reference means, and whether anything is there. -/
structure Resolved where
  kind : TargetKind
  present : Bool
deriving DecidableEq, Repr

/-- A reference is remote if it contains `://`. -/
def isRemote : Text → Bool
  | [] => false
  | c :: rest => List.isPrefixOf ("://" : Text) (c :: rest) || isRemote rest

end BlockSync
