import BlockSync.Document

/-! TOML documents as trees. A table remembers how it came to be, which says what may still be
added to it. Adding gives a new tree, or none if the tree has no room for what is added. -/

namespace BlockSync

namespace Toml

inductive Origin
  /-- It has a header of its own, as the top has. -/
  | header
  /-- It is only named on the way to a header. -/
  | implied
  /-- Dotted keys made it. -/
  | dotted
  /-- It is written out in one place. -/
  | closed
deriving DecidableEq, Repr

end Toml

inductive Toml
  | bool (value : Bool)
  | text (value : Text)
  /-- A number or a moment. -/
  | other
  | list (items : List Toml)
  | table (origin : Toml.Origin) (fields : List (Text × Toml))
  /-- Tables of which each has a header of its own. -/
  | tables (elements : List (List (Text × Toml)))
deriving Inhabited

namespace Toml

abbrev Fields := List (Text × Toml)

def find? (fields : Fields) (key : Text) : Option Toml :=
  (fields.find? (·.1 == key)).map Prod.snd

def put (key : Text) (value : Toml) : Fields → Fields
  | [] => [(key, value)]
  | f :: rest => if f.1 = key then (key, value) :: rest else f :: put key value rest

/-- Changes the table that keys lead to, making those that are missing. The way goes through the
last of several tables. Dotted keys do not enter tables that have a header. -/
def alter (dotted : Bool) (change : Origin → Fields → Option Fields) (origin : Origin)
    (fields : Fields) : List Text → Option Fields
  | [] => change origin fields
  | key :: path =>
    match find? fields key with
    | none =>
      let made := if dotted then .dotted else .implied
      (alter dotted change made [] path).map fun inner => put key (.table made inner) fields
    | some (.table inner below) =>
      if inner = .closed ∨ dotted ∧ inner = .header then none
      else
        (alter dotted change inner below path).map fun below =>
          put key (.table inner below) fields
    | some (.tables elements) =>
      match elements.getLast? with
      | none => none
      | some last =>
        (alter dotted change .header last path).map fun last =>
          put key (.tables (elements.dropLast ++ [last])) fields
    | some _ => none

/-- Adds a value under dotted keys, of which `path` are the first ones. -/
def assign (origin : Origin) (fields : Fields) (path : List Text) (key : Text) (value : Toml) :
    Option Fields :=
  alter true
    (fun made fields =>
      if path.isEmpty = (made == .dotted) ∨ (find? fields key).isSome then none
      else some (put key value fields))
    origin fields path

def openTable (top : Fields) (path : List Text) (key : Text) : Option Fields :=
  alter false
    (fun _ fields =>
      match find? fields key with
      | none => some (put key (.table .header []) fields)
      | some (.table .implied inner) => some (put key (.table .header inner) fields)
      | some _ => none)
    .header top path

def openElement (top : Fields) (path : List Text) (key : Text) : Option Fields :=
  alter false
    (fun _ fields =>
      match find? fields key with
      | none => some (put key (.tables [[]]) fields)
      | some (.tables elements) => some (put key (.tables (elements ++ [[]])) fields)
      | some _ => none)
    .header top path

def assignBelow (top : Fields) (header path : List Text) (key : Text) (value : Toml) :
    Option Fields :=
  alter false (fun origin fields => assign origin fields path key value) .header top header

def isHollow : Toml → Bool
  | .list items => items.isEmpty
  | .table _ fields => fields.isEmpty
  | .tables elements => elements.isEmpty
  | _ => false

instance : Document Toml where
  null? _ := some false
  bool?
    | .bool b => some b
    | _ => none
  text?
    | .text t => some t
    | _ => none
  variant?
    | .text t => some t
    | .table _ [(key, value)] => if value.isHollow then some key else none
    | _ => none
  items?
    | .list items => some items
    | .tables elements => some (elements.map (.table .header))
    | _ => none
  fields?
    | .table _ fields => some fields
    | _ => none

end Toml

end BlockSync
