import BlockSync.Toml
import BlockSync.Toml.Scalar

/-! Reading TOML text, statement by statement. Every step hands on what it has not read; the fuel
bounds the depth of calls, of which there are at most two for a character. -/

namespace BlockSync.Toml

def maxDepth : Nat := 79

def isBare (c : Char) : Bool :=
  c.isAlphanum || c = '_' || c = '-'

def readSimpleKey : Text → Option (Text × Text)
  | '"' :: rest => readBasic rest
  | '\'' :: rest => readLiteral rest
  | t =>
    match t.takeWhile isBare with
    | [] => none
    | key => some (key, t.drop key.length)

def readKeys : Nat → Text → Option (List Text × Text)
  | 0, _ => none
  | n + 1, t =>
    match readSimpleKey (skipBlanks t) with
    | none => none
    | some (key, rest) =>
      match skipBlanks rest with
      | '.' :: rest => (readKeys n rest).map fun r => (key :: r.1, r.2)
      | rest => some ([key], rest)

/-- The last of the keys, those before it, and what follows. -/
def readKey (t : Text) : Option (List Text × Text × Text) :=
  match readKeys (t.length + 1) t with
  | none => none
  | some (keys, rest) =>
    if maxDepth < keys.length then none
    else keys.getLast?.map fun key => (keys.dropLast, key, rest)

/-- What comes behind blanks, newlines and comments. -/
def skipLayout : Text → Text
  | [] => []
  | c :: rest =>
    if isBlank c ∨ c = '\n' then skipLayout rest
    else if c = '\r' ∧ rest.head? = some '\n' then skipLayout rest
    else if c = '#' then skipLayout (rest.dropWhile isPlain)
    else c :: rest
termination_by t => t.length
decreasing_by
  all_goals
    have shorter := (List.dropWhile_sublist (l := rest) isPlain).length_le
    simp only [List.length_cons]
    omega

/-- What follows the end of a line, before which a comment may stand. -/
def skipLineEnd (t : Text) : Option Text :=
  let t :=
    match skipBlanks t with
    | '#' :: rest => rest.dropWhile isPlain
    | rest => rest
  if t = [] then some [] else skipNewline? t

def readWord (t : Text) : Option (Toml × Text) :=
  match Text.after? "true" t, Text.after? "false" t with
  | some rest, _ => some (.bool true, rest)
  | none, some rest => some (.bool false, rest)
  | none, none => none

mutual

def readValue : Nat → Nat → Text → Option (Toml × Text)
  | 0, _, _ => none
  | n + 1, room, t =>
    match t with
    | '[' :: rest =>
      match room with
      | 0 => none
      | room + 1 => (readItems n room rest).map fun r => (.list r.1, r.2)
    | '{' :: rest =>
      match room with
      | 0 => none
      | room + 1 =>
        match skipBlanks rest with
        | '}' :: rest => some (.table .closed [], rest)
        | rest => (readPairs n room [] rest).map fun r => (.table .closed r.1, r.2)
    | t =>
      match readText t, readWord t with
      | some (written, rest), _ => some (.text written, rest)
      | none, some r => some r
      | none, none => (skipOther t).map fun rest => (.other, rest)

/-- The items of a list, in front of which a newline or a comment may stand. -/
def readItems : Nat → Nat → Text → Option (List Toml × Text)
  | 0, _, _ => none
  | n + 1, room, t =>
    match skipLayout t with
    | ']' :: rest => some ([], rest)
    | t =>
      match readValue n room t with
      | none => none
      | some (v, rest) =>
        match skipLayout rest with
        | ',' :: rest => (readItems n room rest).map fun r => (v :: r.1, r.2)
        | ']' :: rest => some ([v], rest)
        | _ => none

def readPairs : Nat → Nat → Fields → Text → Option (Fields × Text)
  | 0, _, _, _ => none
  | n + 1, room, fields, t =>
    match readKey t with
    | some (path, key, '=' :: rest) =>
      match readValue n room (skipBlanks rest) with
      | none => none
      | some (v, rest) =>
        match assign .header fields path key v with
        | none => none
        | some fields =>
          match skipBlanks rest with
          | ',' :: rest => readPairs n room fields rest
          | '}' :: rest => some (fields, rest)
          | _ => none
    | _ => none

end

/-- One statement: a header, or a pair below the latest one. -/
def readStatement (top : Fields) (header : List Text) (t : Text) :
    Option (Fields × List Text × Text) :=
  match t with
  | '[' :: '[' :: rest => do
    let (path, key, rest) ← readKey rest
    let rest ← skipLineEnd (← Text.after? "]]" rest)
    some (← openElement top path key, path ++ [key], rest)
  | '[' :: rest => do
    let (path, key, rest) ← readKey rest
    let rest ← skipLineEnd (← Text.after? "]" rest)
    some (← openTable top path key, path ++ [key], rest)
  | t => do
    let (path, key, rest) ← readKey t
    let rest ← Text.after? "=" rest
    let (v, rest) ← readValue (2 * t.length) maxDepth (skipBlanks rest)
    some (← assignBelow top header path key v, header, ← skipLineEnd rest)

def readStatements : Nat → Fields → List Text → Text → Option Fields
  | 0, _, _, _ => none
  | n + 1, top, header, t =>
    match skipBlanks t with
    | [] => some top
    | c :: rest =>
      if c = '#' ∨ c = '\n' ∨ c = '\r' then
        match skipLineEnd (c :: rest) with
        | none => none
        | some rest => readStatements n top header rest
      else
        match readStatement top header (c :: rest) with
        | none => none
        | some (top, header, rest) => readStatements n top header rest

def parse? (t : Text) : Option Toml :=
  let t := (Text.after? "\ufeff" t).getD t
  (readStatements (t.length + 1) [] [] t).map (.table .header)

end BlockSync.Toml
