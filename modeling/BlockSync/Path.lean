import BlockSync.Text.Utf8

/-! Paths compare as text, so they are kept in one lexical form: forward slashes, no empty or `.`
component, and every `..` has taken the component before it away. Two leading slashes name a
network path. Nothing here looks at a disk. -/

namespace BlockSync

namespace Path

/-- What a text says before its first component. -/
inductive Kind
  | empty
  | relative
  | absolute
  | network
deriving DecidableEq, Repr

def kindOf : Text → Kind
  | [] => .empty
  | '/' :: '/' :: '/' :: _ => .absolute
  | '/' :: '/' :: _ => .network
  | '/' :: _ => .absolute
  | _ => .relative

/-- One component on top of those before it. -/
def push (stack : List Text) (component : Text) : List Text :=
  if component = [] ∨ component = "." then stack
  else if component = ".." then stack.dropLast
  else stack ++ [component]

def componentsOf (raw : Text) : List Text :=
  (raw.splitOn '/').foldl push []

def render : Kind → List Text → Text
  | .network, components => "//" ++ Text.joinWith "/" components
  | .absolute, components => "/" ++ Text.joinWith "/" components
  | .relative, [] => "."
  | _, components => Text.joinWith "/" components

def clean (raw : Text) : Text :=
  render (kindOf raw) (componentsOf raw)

def slashes (raw : Text) : Text :=
  raw.map fun c => if c = '\\' then '/' else c

end Path

/-- A text that cleaning produces once its backslashes are slashes. -/
structure Path where
  text : Text
  cleaned : ∃ raw, Path.clean (Path.slashes raw) = text
deriving DecidableEq

namespace Path

instance : Ord Path where
  compare p q := compare p.text q.text

def ofText (raw : Text) : Path :=
  ⟨clean (slashes raw), raw, rfl⟩

def ofBytes (bytes : Text.Utf8.Bytes) : Path :=
  ofText (Text.Utf8.decodeLossy bytes)

instance : Inhabited Path := ⟨ofText []⟩

/-- Goes on from a path; a segment without a component of its own changes nothing. -/
def join (p : Path) (segment : Text) : Path :=
  let segment := slashes segment
  if clean segment = [] ∨ clean segment = "." then p
  else if p.text = [] then ofText segment
  else if p.text.getLast? = some '/' then ofText (p.text ++ segment)
  else ofText (p.text ++ '/' :: segment)

/-- The directory that holds the path; a bare name and the top have none. -/
def parent? (p : Path) : Option Path :=
  match Text.cutLast '/' p.text with
  | none => none
  | some ([], []) => none
  | some ([], _) => some (ofText "/")
  | some (head, _) => some (ofText head)

def fileName? (p : Path) : Option Text :=
  let name := match Text.cutLast '/' p.text with
    | some (_, name) => name
    | none => p.text
  if name = [] ∨ name = "." then none else some name

/-- What follows the last dot of the name, unless that dot starts it. -/
def extension? (p : Path) : Option Text :=
  match p.fileName?.bind (Text.cutLast '.') with
  | some (_ :: _, extension) => some extension
  | _ => none

/-- The way from `base` down to the path, if the path lies below it. -/
def relativeTo? (p base : Path) : Option Text :=
  if p.text = base.text then some []
  else
    match Text.after? base.text p.text with
    | none => none
    | some rest =>
      if base.text.getLast? = some '/' then some rest
      else
        match rest with
        | '/' :: rest => some rest
        | _ => none

/-- The directories above the path, nearest first. Each has a shorter text. -/
def ancestors (p : Path) : List Path :=
  climb p.text.length p
where
  climb : Nat → Path → List Path
    | 0, _ => []
    | n + 1, p =>
      match p.parent? with
      | none => []
      | some q => q :: climb n q

end Path

end BlockSync
