import BlockSync.Failure
import BlockSync.Path
import BlockSync.SortedMap

/-! Migrations of targets from one place to another. Sources are leading texts of paths below the
root; the longest one that applies decides. -/

namespace BlockSync

inductive MigrationMode
  | missing
  | all
deriving DecidableEq, Repr

def MigrationMode.name : MigrationMode → Text
  | .missing => "missing"
  | .all => "all"

structure Mapping where
  source : Text
  destination : Text
deriving DecidableEq, Repr

/-- Migrations that do not contradict each other. -/
structure Migrations where
  mode : MigrationMode
  mappings : SortedMap Text Text
deriving DecidableEq

namespace Migrations

def none : Migrations := ⟨.missing, ∅⟩

def addMapping (known : SortedMap Text Text) (m : Mapping) :
    Except MigrationFault (SortedMap Text Text) :=
  if m.source = [] then .error .emptySource
  else
    match known.find? m.source with
    | some first =>
      if first = m.destination then .ok known
      else .error (.twoDestinations m.source first m.destination)
    | Option.none => .ok (known.insert m.source m.destination)

def collect (known : SortedMap Text Text) :
    List Mapping → Except MigrationFault (SortedMap Text Text)
  | [] => .ok known
  | m :: rest =>
    match addMapping known m with
    | .ok known => collect known rest
    | .error fault => .error fault

def ofMappings (mode : MigrationMode) (mappings : List Mapping) :
    Except MigrationFault Migrations :=
  (collect ∅ mappings).map fun known => ⟨mode, known⟩

/-- The pair with the longest source; the later one of two that are equally long. -/
def longest : List (Text × Text) → Option (Text × Text)
  | [] => Option.none
  | e :: rest =>
    match longest rest with
    | Option.none => some e
    | some f => if f.1.length < e.1.length then some e else some f

/-- Where a path below the root goes, if anywhere else. -/
def resolve (m : Migrations) (relative : Text) : Option Text :=
  match longest (m.mappings.entries.filter (·.1.isPrefixOf relative)) with
  | Option.none => Option.none
  | some (source, destination) =>
    let moved := destination ++ relative.drop source.length
    if moved = relative then Option.none else some moved

/-- Where a target goes that is declared in a file with this root, as it is to be written. -/
def resolveTarget (m : Migrations) (root : Path) (target : Text) : Option Text :=
  if m.mappings.isEmpty then Option.none
  else ((Path.ofText target).relativeTo? root).bind m.resolve

end Migrations

end BlockSync
