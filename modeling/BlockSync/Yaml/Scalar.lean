import BlockSync.Json
import BlockSync.Yaml.Cursor

/-! The texts of YAML scalars. Line breaks in plain and quoted ones fold: a single one becomes a
blank, and of several the first goes away. The fuel bounds the characters that are left. -/

namespace BlockSync.Yaml

inductive Style
  | plain
  | quoted
  | literal
  | folded
deriving DecidableEq, Repr

/-- Blanks and line breaks between two words. -/
structure Gap where
  blanks : Text
  broken : Bool
  first : Text
  more : Text

namespace Gap

def none : Gap := ⟨[], false, [], []⟩

def escaped : Gap := ⟨[], true, [], []⟩

def isEmpty (gap : Gap) : Bool :=
  gap.blanks.isEmpty && !gap.broken

def addBlank (gap : Gap) (c : Char) : Gap :=
  if gap.broken then gap else { gap with blanks := gap.blanks ++ [c] }

def addBreak (gap : Gap) (written : Text) : Gap :=
  if gap.broken then { gap with more := gap.more ++ written }
  else { gap with broken := true, first := written }

def text (gap : Gap) : Text :=
  if !gap.broken then gap.blanks
  else if gap.first = ['\n'] then if gap.more = [] then [' '] else gap.more
  else gap.first ++ gap.more

end Gap

/-- Whether a plain scalar ends in front of a character with `rest` behind it. -/
def endsPlain (flow : Bool) (c : Char) (rest : Text) : Bool :=
  c = ':' && atGap rest || flow && c ∈ [',', '[', ']', '{', '}']

def misplacedColon (flow : Bool) (c : Char) (rest : Text) : Bool :=
  flow && c = ':' && rest.head?.any (· ∈ [',', '?', '[', ']', '{', '}'])

/-- A plain scalar, whose lines start at column `low` at least. Tells also whether a line break
follows it. -/
def readPlainFrom (flow : Bool) (low : Nat) : Nat → Gap → Cursor → Option (Text × Bool × Cursor)
  | 0, _, _ => none
  | n + 1, gap, cur =>
    match cur.rest with
    | [] => some ([], gap.broken, cur)
    | c :: rest =>
      if isBlank c then
        if gap.broken ∧ c = '\t' ∧ cur.column < low then none
        else readPlainFrom flow low n (gap.addBlank c) (cur.advance 1)
      else if isBreak c then
        let (written, next) := cur.readBreak
        readPlainFrom flow low n (gap.addBreak written) next
      else if !gap.isEmpty ∧
          (!flow ∧ cur.column < low ∨ c = '#' ∨ cur.column = 0 ∧ atDocumentMark cur.rest) then
        some ([], gap.broken, cur)
      else if misplacedColon flow c rest then none
      else if endsPlain flow c rest then some ([], gap.broken, cur)
      else
        (readPlainFrom flow low n .none (cur.advance 1)).map fun r => (gap.text ++ c :: r.1, r.2)

def readPlain (flow : Bool) (low : Nat) (cur : Cursor) : Option (Text × Bool × Cursor) :=
  readPlainFrom flow low (cur.rest.length + 1) .none cur

def numbered? (count : Nat) (t : Text) : Option (Char × Nat) :=
  if t.length < count then none
  else
    match (t.take count).mapM Json.hexDigit? with
    | none => none
    | some digits =>
      let n := digits.foldl (fun n d => 16 * n + d) 0
      if n.isValidChar then some (Char.ofNat n, count + 1) else none

/-- What stands behind a backslash: a character, and how many characters spell it. -/
def escaped? : Text → Option (Char × Nat)
  | '0' :: _ => some ('\x00', 1)
  | 'a' :: _ => some ('\x07', 1)
  | 'b' :: _ => some ('\x08', 1)
  | 't' :: _ => some ('\t', 1)
  | '\t' :: _ => some ('\t', 1)
  | 'n' :: _ => some ('\n', 1)
  | 'v' :: _ => some ('\x0b', 1)
  | 'f' :: _ => some ('\x0c', 1)
  | 'r' :: _ => some ('\r', 1)
  | 'e' :: _ => some ('\x1b', 1)
  | ' ' :: _ => some (' ', 1)
  | '"' :: _ => some ('"', 1)
  | '/' :: _ => some ('/', 1)
  | '\\' :: _ => some ('\\', 1)
  | 'N' :: _ => some ('\u0085', 1)
  | '_' :: _ => some ('\u00a0', 1)
  | 'L' :: _ => some ('\u2028', 1)
  | 'P' :: _ => some ('\u2029', 1)
  | 'x' :: digits => numbered? 2 digits
  | 'u' :: digits => numbered? 4 digits
  | 'U' :: digits => numbered? 8 digits
  | _ => none

/-- A quoted scalar behind its quote. A single quote is written twice; in double quotes there are
escapes, and a backslash hides a line break. -/
def readQuotedFrom (quote : Char) : Nat → Gap → Cursor → Option (Text × Cursor)
  | 0, _, _ => none
  | n + 1, gap, cur =>
    match cur.rest with
    | [] => none
    | c :: rest =>
      if isBlank c then readQuotedFrom quote n (gap.addBlank c) (cur.advance 1)
      else if isBreak c then
        let (written, next) := cur.readBreak
        readQuotedFrom quote n (gap.addBreak written) next
      else if cur.column = 0 ∧ atDocumentMark cur.rest then none
      else if c = quote then
        if quote = '\'' ∧ rest.head? = some '\'' then
          (readQuotedFrom quote n .none (cur.advance 2)).map fun r => (gap.text ++ c :: r.1, r.2)
        else some (gap.text, cur.advance 1)
      else if c = '\\' ∧ quote = '"' then
        if rest.head?.any isBreak then
          (readQuotedFrom quote n .escaped (cur.advance 1).readBreak.2).map fun r =>
            (gap.text ++ r.1, r.2)
        else
          match escaped? rest with
          | none => none
          | some (d, count) =>
            (readQuotedFrom quote n .none (cur.advance (count + 1))).map fun r =>
              (gap.text ++ d :: r.1, r.2)
      else
        (readQuotedFrom quote n .none (cur.advance 1)).map fun r => (gap.text ++ c :: r.1, r.2)

def readQuoted (quote : Char) (cur : Cursor) : Option (Text × Cursor) :=
  readQuotedFrom quote (cur.rest.length + 1) .none cur

/-- What becomes of the line breaks at the end of a block. -/
inductive Chomping
  | strip
  | clip
  | keep
deriving DecidableEq, Repr

/-- The marks behind the one that starts a block: chomping and indentation, in any order. -/
def readBlockMarks (t : Text) : Option (Chomping × Nat × Nat) :=
  let chomping? : Char → Option Chomping := fun c =>
    if c = '+' then some .keep else if c = '-' then some .strip else none
  let digit? : Char → Option Nat := fun c => if c.isDigit then some (c.toNat - 48) else none
  match t with
  | [] => some (.clip, 0, 0)
  | c :: rest =>
    match chomping? c, digit? c with
    | some chomping, _ =>
      match rest.head?.bind digit? with
      | some 0 => none
      | some width => some (chomping, width, 2)
      | none => some (chomping, 0, 1)
    | none, some 0 => none
    | none, some width =>
      match rest.head?.bind chomping? with
      | some chomping => some (chomping, width, 2)
      | none => some (.clip, width, 1)
    | none, none => some (.clip, 0, 0)

/-- Empty lines in front of a line of a block, and how far their blanks go. Without an indentation
of its own, the block takes the widest one. -/
def readEmptyLines (indent : Nat) : Nat → Nat → Cursor → Option (Text × Nat × Cursor)
  | 0, _, _ => none
  | n + 1, widest, cur =>
    let blanks := (cur.rest.takeWhile (· = ' ')).length
    let room := if indent = 0 then blanks else indent - cur.column
    let cur := cur.advance (min blanks room)
    let widest := max widest cur.column
    match cur.rest with
    | [] => some ([], widest, cur)
    | c :: _ =>
      if c = '\t' ∧ (indent = 0 ∨ cur.column < indent) then none
      else if isBreak c then
        let (written, next) := cur.readBreak
        (readEmptyLines indent n widest next).map fun r => (written ++ r.1, r.2)
      else some ([], widest, cur)

/-- The lines of a block: its text up to the last line break, that break, and those behind it.
`before` are the breaks in front of the first line; `leading` is the one that ended the line before
it, which started with a blank if `indented`. -/
def readBlockLines (literal : Bool) (indent : Nat) :
    Nat → Bool → Text → Text → Cursor → Option (Text × Text × Text × Cursor)
  | 0, _, _, _, _ => none
  | n + 1, indented, leading, before, cur =>
    if cur.column ≠ indent ∨ cur.rest = [] then some ([], leading, before, cur)
    else
      let blank := cur.rest.head?.any isBlank
      let glue :=
        if !literal ∧ leading = ['\n'] ∧ !indented ∧ !blank then
          if before = [] then [' '] else []
        else leading
      let line := cur.rest.takeWhile (!isBreak ·)
      let (ended, next) := (cur.advance line.length).readBreak
      match readEmptyLines indent (next.rest.length + 1) 0 next with
      | none => none
      | some (more, _, next) =>
        (readBlockLines literal indent n blank ended more next).map fun r =>
          (glue ++ before ++ line ++ r.1, r.2)

/-- A block scalar behind its first mark, in a collection whose lines start at column `low` minus
one. -/
def readBlock (literal : Bool) (low : Nat) (cur : Cursor) : Option (Text × Cursor) := do
  let (chomping, width, taken) ← readBlockMarks cur.rest
  let cur ← (cur.advance taken).skipComment
  let cur := cur.readBreak.2
  let given := if width = 0 then 0 else low - 1 + width
  let (before, widest, cur) ← readEmptyLines given (cur.rest.length + 1) 0 cur
  let indent := if given = 0 then max (max widest low) 1 else given
  let (text, leading, behind, cur) ←
    readBlockLines literal indent (cur.rest.length + 1) false [] before cur
  match chomping with
  | .strip => some (text, cur)
  | .clip => some (text ++ leading, cur)
  | .keep => some (text ++ leading ++ behind, cur)

end BlockSync.Yaml
