import BlockSync.Tag

/-! Telling tag lines from content. The comment start is the longest configured one that follows
the indentation. The last of two or more words behind the id closes the comment if it is made of
comment characters only; before it stand the target and, in front of that, maybe a checksum. -/

namespace BlockSync

namespace Tag.Syntax

/-- Longer comments come first, and equally long ones in byte order. -/
def comes (a b : Text) : Bool :=
  b.byteLength < a.byteLength || (a.byteLength == b.byteLength && Text.le a b)

/-- Puts a comment in its place, unless it is there. -/
def insert (comment : Text) : List Text → List Text
  | [] => [comment]
  | other :: rest =>
    if comment = other then other :: rest
    else if comes comment other then comment :: other :: rest
    else other :: insert comment rest

/-- Longest first, then in byte order, each once, none empty. -/
def arrange (comments : List Text) : List Text :=
  (comments.filter (! ·.isEmpty)).foldr insert []

end Tag.Syntax

/-- The comment starts that may stand before a tag. -/
structure TagSyntax where
  comments : List Text
  arranged : ∃ given, Tag.Syntax.arrange given = comments
deriving DecidableEq

namespace TagSyntax

open Tag

def ofComments (given : List Text) : TagSyntax :=
  ⟨Syntax.arrange given, given, rfl⟩

def defaultComments : List Text :=
  ["//", "#", "<!--", "/*", "--", ";", "%", "'"]

instance : Inhabited TagSyntax := ⟨ofComments defaultComments⟩

/-- The id in front of the first blank. -/
def splitId (rest : Text) : Text × Text :=
  (rest.takeWhile (!Text.isBlank ·), rest.dropWhile (!Text.isBlank ·))

/-- The last of the words, if it can be a comment end, and the pieces before it. -/
def splitCommentEnd (pieces : List Text.Piece) : List Text.Piece × Option Text.Piece :=
  match pieces.getLast? with
  | some last =>
    if 2 ≤ pieces.length ∧ isCommentEnd last.word then (pieces.dropLast, some last)
    else (pieces, none)
  | none => (pieces, none)

/-- A line whose start keyword is followed by `rest`. -/
def startLine (lead comment rest : Text) : Tag.Line :=
  let (id, tail) := splitId rest
  if id = [] then .badStart .missingId
  else if !isId id then .badStart (.invalidId id)
  else
    let (pieces, blanks) := tail.pieces
    let (words, closing) := splitCommentEnd pieces
    let trail := ((closing.map Text.Piece.text).getD []) ++ blanks
    let offset := fun before : Text =>
      (lead ++ startKeyword ++ id ++ before).byteLength
    match words with
    | [] => .badStart (.missingTarget id)
    | [target] =>
      .start
        { lead, comment, id, checksum := none, target := target.word,
          targetOffset := offset target.gap, trail, commentEnd := closing.map (·.word) }
    | [checksum, target] =>
      .start
        { lead, comment, id, checksum := some checksum.word, target := target.word,
          targetOffset := offset (checksum.text ++ target.gap), trail,
          commentEnd := closing.map (·.word) }
    | _ => .badStart (.wordsAfterTarget id)

/-- A line whose end keyword is followed by `rest`. -/
def endLine (comment rest : Text) : Tag.Line :=
  let (id, tail) := splitId rest
  if id = [] then .badEnd .missingId
  else if !isId id then .badEnd (.invalidId id)
  else
    match tail.pieces.1 with
    | [] => .finish { comment, id, commentEnd := none }
    | [closing] =>
      if isCommentEnd closing.word then
        .finish { comment, id, commentEnd := some closing.word }
      else .badEnd (.wordsAfterId id)
    | _ => .badEnd (.wordsAfterId id)

/-- Sorts a line, given without its terminator. -/
def classify (s : TagSyntax) (line : Text) : Tag.Line :=
  let indent := line.takeWhile Text.isBlank
  let trimmed := line.dropWhile Text.isBlank
  match s.comments.find? (·.isPrefixOf trimmed) with
  | none => .content
  | some comment =>
    let rest := trimmed.drop comment.length
    let lead := indent ++ comment ++ rest.takeWhile Text.isBlank
    let body := rest.dropWhile Text.isBlank
    match Text.after? startKeyword body with
    | some rest => startLine lead comment rest
    | none =>
      match Text.after? endKeyword body with
      | some rest => endLine comment rest
      | none => .content

/-- The declaration with another checksum, or none if it is no declaration. -/
def withChecksum? (s : TagSyntax) (declaration checksum : Text) : Option Text :=
  match s.classify declaration with
  | .start tag => some (tag.render checksum tag.target)
  | _ => none

/-- The declaration with another target and checksum, or none if it is no declaration. -/
def withTarget? (s : TagSyntax) (declaration target checksum : Text) : Option Text :=
  match s.classify declaration with
  | .start tag => some (tag.render checksum target)
  | _ => none

end TagSyntax

end BlockSync
