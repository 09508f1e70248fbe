import BlockSync.Text.Utf8
import BlockSync.Yaml.Scalar

/-! The tokens of a YAML text. Indentation opens and closes block collections. What turns out to
be a key only by the colon behind it gets its mark afterwards, in front of the token that it starts
with; such a key stands on one line and is short. -/

namespace BlockSync.Yaml

inductive Token
  | version (major minor : Nat)
  | tagLead (handle lead : Text)
  | documentStart
  | documentEnd
  | blockSequence
  | blockMapping
  | blockEnd
  | flowSequence
  | flowSequenceEnd
  | flowMapping
  | flowMappingEnd
  | entry
  | comma
  | key
  | value
  | reference (name : Text)
  | anchor (name : Text)
  | tag (handle rest : Text)
  | scalar (style : Style) (text : Text)
deriving DecidableEq, Repr

/-- A place where a key may start: the number of tokens before it, and whether it must be one. -/
structure Candidate where
  number : Nat
  index : Nat
  line : Nat
  column : Nat
  required : Bool

/-- How far a text is scanned. The latest token and the innermost column come first; `outer` holds
the candidates of the flow collections around the innermost one. -/
structure Scan where
  cursor : Cursor
  tokens : List Token
  columns : List Nat
  candidate : Option Candidate
  outer : List (Option Candidate)
  keyAllowed : Bool

namespace Scan

def start (t : Text) : Scan :=
  ⟨.start t, [], [], none, [], true⟩

def inFlow (s : Scan) : Bool :=
  !s.outer.isEmpty

/-- The least column of a line that goes on with what the innermost collection holds. -/
def low (s : Scan) : Nat :=
  match s.columns with
  | [] => 0
  | column :: _ => column + 1

def emit (s : Scan) (token : Token) : Scan :=
  { s with tokens := token :: s.tokens }

def moveTo (s : Scan) (cursor : Cursor) : Scan :=
  { s with cursor }

def allowKey (s : Scan) (allowed : Bool) : Scan :=
  { s with keyAllowed := allowed }

def insert (s : Scan) (number : Nat) (token : Token) : Scan :=
  { s with tokens := s.tokens.insertIdx (s.tokens.length - number) token }

/-- Opens a block collection at a column, unless one is open there or a flow collection is. -/
def indent (s : Scan) (number column : Nat) (token : Token) : Scan :=
  if s.inFlow ∨ column < s.low then s
  else { s.insert number token with columns := column :: s.columns }

/-- Closes the block collections that start behind column `low` minus one. -/
def unindent (s : Scan) (low : Nat) : Scan :=
  if s.inFlow then s
  else
    let open_ := s.columns.dropWhile (low ≤ ·)
    { s with
      tokens := List.replicate (s.columns.length - open_.length) .blockEnd ++ s.tokens
      columns := open_ }

/-- Gives a candidate up. One that must be a key cannot be given up. -/
def drop : Option Candidate → Option Unit
  | none => some ()
  | some c => if c.required then none else some ()

def dropCandidate (s : Scan) : Option Scan :=
  (drop s.candidate).map fun _ => { s with candidate := none }

def isStale (cur : Cursor) (c : Candidate) : Bool :=
  c.line < cur.line || c.index + 1024 < cur.index

/-- Gives up the candidates that are on another line or too far away. -/
def dropStale (s : Scan) : Option Scan := do
  let fresh := fun candidate : Option Candidate =>
    if candidate.any (isStale s.cursor) then (drop candidate).map fun _ => none
    else some candidate
  some { s with candidate := ← fresh s.candidate, outer := ← s.outer.mapM fresh }

def noteCandidate (s : Scan) : Option Scan :=
  if s.keyAllowed then
    (drop s.candidate).map fun _ =>
      let cur := s.cursor
      let required := !s.inFlow && s.low == cur.column + 1
      { s with
        candidate := some ⟨s.tokens.length, cur.index, cur.line, cur.column, required⟩ }
  else some s

/-- Goes on to the next token, behind blanks, comments and line breaks. Tabs count as blanks where
no key may start. -/
def toToken (s : Scan) : Nat → Scan
  | 0 => s
  | n + 1 =>
    let tabs := s.inFlow || !s.keyAllowed
    let cur := s.cursor.skipWhile fun c => c = ' ' || tabs && c = '\t'
    let cur := if cur.rest.head? = some '#' then cur.skipWhile (!isBreak ·) else cur
    if cur.rest.head?.any isBreak then
      toToken ((s.moveTo cur.readBreak.2).allowKey (s.keyAllowed || !s.inFlow)) n
    else s.moveTo cur

def isNameChar (c : Char) : Bool :=
  c.isAlphanum || c = '_' || c = '-'

def readName (cur : Cursor) : Text × Cursor :=
  (cur.rest.takeWhile isNameChar, cur.skipWhile isNameChar)

def readAnchor (cur : Cursor) : Option (Text × Cursor) :=
  let (name, cur) := readName cur
  if name ≠ [] ∧
      (atGap cur.rest || cur.rest.head?.any (· ∈ ['?', ':', ',', ']', '}', '%', '@', '`'])) then
    some (name, cur)
  else none

def readEscapedByte : Text → Option UInt8
  | '%' :: a :: b :: _ => do
    some (UInt8.ofNat (16 * (← Json.hexDigit? a) + (← Json.hexDigit? b)))
  | _ => none

def readEscapedChar (t : Text) : Option (Char × Nat) := do
  let first ← readEscapedByte t
  let count ← Text.Utf8.follow? first.toNat
  let bytes ← (List.range (count.1 + 1)).mapM fun i => readEscapedByte (t.drop (3 * i))
  match Text.Utf8.decode bytes with
  | .ok [c] => some (c, 3 * bytes.length)
  | _ => none

def isUriChar (verbatim : Bool) (c : Char) : Bool :=
  isNameChar c || c ∈ ";/?:@&=+$.!~*'()".toList || verbatim && c ∈ [',', '[', ']']

def readUri (verbatim : Bool) : Nat → Cursor → Option (Text × Cursor)
  | 0, _ => none
  | n + 1, cur =>
    match cur.rest with
    | [] => some ([], cur)
    | c :: _ =>
      if c = '%' then
        match readEscapedChar cur.rest with
        | none => none
        | some (d, count) =>
          (readUri verbatim n (cur.advance count)).map fun r => (d :: r.1, r.2)
      else if isUriChar verbatim c then
        (readUri verbatim n (cur.advance 1)).map fun r => (c :: r.1, r.2)
      else some ([], cur)

def readWholeUri (verbatim : Bool) (cur : Cursor) : Option (Text × Cursor) :=
  readUri verbatim (cur.rest.length + 1) cur

/-- The handle that a tag starts with, and whether it has an end mark. -/
def readHandle (cur : Cursor) : Option (Text × Bool × Cursor) :=
  match cur.rest with
  | '!' :: _ =>
    let (name, cur) := readName (cur.advance 1)
    if cur.rest.head? = some '!' then some ('!' :: name ++ ['!'], true, cur.advance 1)
    else some ('!' :: name, false, cur)
  | _ => none

/-- A tag in full between angles, behind a handle, or on its own. -/
def readTag (cur : Cursor) : Option (Token × Cursor) :=
  match Text.after? "!<" cur.rest with
  | some _ => do
    let (name, cur) ← readWholeUri true (cur.advance 2)
    if name ≠ [] ∧ cur.rest.head? = some '>' then some (.tag [] name, cur.advance 1) else none
  | none => do
    let (handle, ended, cur) ← readHandle cur
    let (name, cur) ← readWholeUri false cur
    if ended then if name = [] then none else some (.tag handle name, cur)
    else
      let name := handle.drop 1 ++ name
      some (if name = [] then .tag [] "!" else .tag "!" name, cur)

/-- A number of a version, of at most nine digits. -/
def readVersionNumber (cur : Cursor) : Option (Nat × Cursor) :=
  let digits := cur.rest.takeWhile Char.isDigit
  if digits = [] ∨ 9 < digits.length then none
  else some (digits.foldl (fun n c => 10 * n + (c.toNat - 48)) 0, cur.advance digits.length)

def readVersion (cur : Cursor) : Option (Token × Cursor) := do
  let (major, cur) ← readVersionNumber (cur.skipWhile isBlank)
  if cur.rest.head? = some '.' then
    let (minor, cur) ← readVersionNumber (cur.advance 1)
    some (.version major minor, cur)
  else none

def readTagLead (cur : Cursor) : Option (Token × Cursor) := do
  let (handle, ended, cur) ← readHandle (cur.skipWhile isBlank)
  if (ended ∨ handle = ['!']) ∧ cur.rest.head?.any isBlank then
    let (lead, cur) ← readWholeUri true (cur.skipWhile isBlank)
    if lead ≠ [] ∧ atGap cur.rest then some (.tagLead handle lead, cur) else none
  else none

def readDirective (cur : Cursor) : Option (Token × Cursor) := do
  let (name, cur) := readName cur
  let (token, cur) ←
    if name = "YAML" then readVersion cur
    else if name = "TAG" then readTagLead cur
    else none
  some (token, (← cur.skipComment).readBreak.2)

def atMargin (s : Scan) : Option Scan :=
  ((s.unindent 0).dropCandidate).map (·.allowKey false)

def openFlow (s : Scan) (token : Token) : Option Scan := do
  let s ← s.noteCandidate
  let s := { s with outer := s.candidate :: s.outer, candidate := none, keyAllowed := true }
  some ((s.moveTo (s.cursor.advance 1)).emit token)

def closeFlow (s : Scan) (token : Token) : Option Scan := do
  let s ← s.dropCandidate
  let s :=
    match s.outer with
    | [] => s
    | candidate :: outer => { s with candidate, outer }
  some (((s.allowKey false).moveTo (s.cursor.advance 1)).emit token)

def readComma (s : Scan) : Option Scan := do
  let s ← s.dropCandidate
  some (((s.allowKey true).moveTo (s.cursor.advance 1)).emit .comma)

def readEntry (s : Scan) : Option Scan := do
  if !s.inFlow ∧ !s.keyAllowed then none
  else
    let s ← (s.indent s.tokens.length s.cursor.column .blockSequence).dropCandidate
    some (((s.allowKey true).moveTo (s.cursor.advance 1)).emit .entry)

def readKey (s : Scan) : Option Scan := do
  if !s.inFlow ∧ !s.keyAllowed then none
  else
    let s ← (s.indent s.tokens.length s.cursor.column .blockMapping).dropCandidate
    some (((s.allowKey !s.inFlow).moveTo (s.cursor.advance 1)).emit .key)

def readValue (s : Scan) : Option Scan :=
  let finish := fun s : Scan => (s.moveTo (s.cursor.advance 1)).emit .value
  match s.candidate with
  | some c =>
    let s := (s.insert c.number .key).indent c.number c.column .blockMapping
    some (finish { s with candidate := none, keyAllowed := false })
  | none =>
    if s.inFlow then some (finish (s.allowKey false))
    else if s.keyAllowed then
      some (finish ((s.indent s.tokens.length s.cursor.column .blockMapping).allowKey true))
    else none

def readStart (s : Scan) (read : Cursor → Option (Token × Cursor)) : Option Scan := do
  let s ← s.noteCandidate
  let (token, cur) ← read s.cursor
  some (((s.allowKey false).moveTo cur).emit token)

def readAlias (cur : Cursor) : Option (Token × Cursor) :=
  (readAnchor (cur.advance 1)).map fun r => (.reference r.1, r.2)

def readAnchored (cur : Cursor) : Option (Token × Cursor) :=
  (readAnchor (cur.advance 1)).map fun r => (.anchor r.1, r.2)

def readClosedTag (flow : Bool) (cur : Cursor) : Option (Token × Cursor) :=
  match readTag cur with
  | none => none
  | some (token, cur) =>
    if atGap cur.rest || flow && cur.rest.head? = some ',' then some (token, cur) else none

def readQuotedScalar (quote : Char) (cur : Cursor) : Option (Token × Cursor) :=
  (readQuoted quote (cur.advance 1)).map fun r => (.scalar .quoted r.1, r.2)

def readPlainScalar (s : Scan) : Option Scan := do
  let s ← s.noteCandidate
  let (text, broken, cur) ← readPlain s.inFlow s.low s.cursor
  some (((s.allowKey broken).moveTo cur).emit (.scalar .plain text))

def readBlockScalar (s : Scan) (literal : Bool) : Option Scan := do
  let s ← s.dropCandidate
  let (text, cur) ← readBlock literal s.low (s.cursor.advance 1)
  let style := if literal then .literal else .folded
  some (((s.allowKey true).moveTo cur).emit (.scalar style text))

def startsPlain (flow : Bool) (c : Char) (rest : Text) : Bool :=
  !(isBlank c || isBreak c || c ∈ "-?:,[]{}#&*!|>'\"%@`".toList) ||
    c = '-' && !rest.head?.any isBlank ||
    !flow && (c = '?' || c = ':') && !atGap rest

def readToken (s : Scan) (c : Char) (rest : Text) : Option Scan :=
  let gap := atGap rest
  if s.cursor.column = 0 ∧ c = '%' then do
    let s ← s.atMargin
    let (token, cur) ← readDirective (s.cursor.advance 1)
    some ((s.moveTo cur).emit token)
  else if s.cursor.column = 0 ∧ atDocumentMark s.cursor.rest then do
    let s ← s.atMargin
    some ((s.moveTo (s.cursor.advance 3)).emit (if c = '-' then .documentStart else .documentEnd))
  else if c = '[' then s.openFlow .flowSequence
  else if c = '{' then s.openFlow .flowMapping
  else if c = ']' then s.closeFlow .flowSequenceEnd
  else if c = '}' then s.closeFlow .flowMappingEnd
  else if c = ',' then s.readComma
  else if c = '-' ∧ gap then s.readEntry
  else if c = '?' ∧ (s.inFlow || gap) then s.readKey
  else if c = ':' ∧ (s.inFlow || gap) then s.readValue
  else if c = '*' then s.readStart readAlias
  else if c = '&' then s.readStart readAnchored
  else if c = '!' then s.readStart (readClosedTag s.inFlow)
  else if (c = '|' ∨ c = '>') ∧ !s.inFlow then s.readBlockScalar (c = '|')
  else if c = '\'' ∨ c = '"' then s.readStart (readQuotedScalar c)
  else if startsPlain s.inFlow c rest then s.readPlainScalar
  else none

def finish (s : Scan) : Option (List Token) :=
  ((s.unindent 0).dropCandidate).map fun s => s.tokens.reverse

def run : Nat → Scan → Option (List Token)
  | 0, _ => none
  | n + 1, s =>
    match (s.toToken (s.cursor.rest.length + 1)).dropStale with
    | none => none
    | some s =>
      let s := s.unindent (s.cursor.column + 1)
      match s.cursor.rest with
      | [] => s.finish
      | c :: rest =>
        match s.readToken c rest with
        | none => none
        | some s => run n s

end Scan

def isAllowed (c : Char) : Bool :=
  c = '\t' || c = '\n' || c = '\r' || c = '\u0085' || (32 ≤ c.toNat && c.toNat < 127) ||
    (0xA0 ≤ c.toNat && c.toNat != 0xFFFE && c.toNat != 0xFFFF)

def Token.ofText? (t : Text) : Option (List Token) :=
  let t := (Text.after? "\ufeff" t).getD t
  if t.all isAllowed then Scan.run (t.length + 1) (.start t) else none

end BlockSync.Yaml
