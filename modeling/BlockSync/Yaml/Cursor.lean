import BlockSync.Text

/-! A place in a YAML text: what is left of it, and how many characters and lines lie before. -/

namespace BlockSync.Yaml

def isBlank (c : Char) : Bool :=
  c = ' ' || c = '\t'

def isBreak (c : Char) : Bool :=
  c = '\n' || c = '\r' || c = '\u0085' || c = '\u2028' || c = '\u2029'

def atGap (t : Text) : Bool :=
  t.head?.all fun c => isBlank c || isBreak c

def atDocumentMark (t : Text) : Bool :=
  match Text.after? "---" t, Text.after? "..." t with
  | some rest, _ => atGap rest
  | none, some rest => atGap rest
  | none, none => false

structure Cursor where
  rest : Text
  index : Nat
  line : Nat
  column : Nat

namespace Cursor

def start (t : Text) : Cursor :=
  ⟨t, 0, 0, 0⟩

def advance (cur : Cursor) (count : Nat) : Cursor :=
  { cur with
    rest := cur.rest.drop count
    index := cur.index + count
    column := cur.column + count }

def skipWhile (cur : Cursor) (test : Char → Bool) : Cursor :=
  cur.advance (cur.rest.takeWhile test).length

/-- Goes on behind a line break, if there is one, and tells what the break means: most mean a
newline, but the separators of lines and paragraphs stay as they are. -/
def readBreak (cur : Cursor) : Text × Cursor :=
  let next := fun count : Nat =>
    (⟨cur.rest.drop count, cur.index + count, cur.line + 1, 0⟩ : Cursor)
  match cur.rest with
  | '\r' :: '\n' :: _ => (['\n'], next 2)
  | '\u2028' :: _ => (['\u2028'], next 1)
  | '\u2029' :: _ => (['\u2029'], next 1)
  | c :: _ => if isBreak c then (['\n'], next 1) else ([], cur)
  | [] => ([], cur)

/-- Goes on to the line break or the end, if only blanks and a comment stand before it. -/
def skipComment (cur : Cursor) : Option Cursor :=
  let cur := cur.skipWhile isBlank
  let cur := if cur.rest.head? = some '#' then cur.skipWhile (!isBreak ·) else cur
  if cur.rest.head?.all isBreak then some cur else none

end Cursor

end BlockSync.Yaml
