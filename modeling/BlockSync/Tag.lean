import BlockSync.Text

/-! The two kinds of tag line that enclose a block, and how a declaration is written.

    <indent><comment>[blanks]sync-start:<id> [<checksum>] <target> [<comment end>]
    <indent><comment>[blanks]sync-end:<id> [<comment end>]
-/

namespace BlockSync

/-- The comment delimiters around a tag. -/
structure CommentStyle where
  opening : Text
  closing : Option Text
deriving DecidableEq, Repr

def CommentStyle.text (style : CommentStyle) : Text :=
  match style.closing with
  | some closing => style.opening ++ " ... " ++ closing
  | none => style.opening

namespace Tag

def startKeyword : Text := "sync-start:"

def endKeyword : Text := "sync-end:"

def isIdChar (c : Char) : Bool :=
  c.isAlphanum || c == '_' || c == '.' || c == '-'

def isId : Text → Bool
  | [] => false
  | c :: rest => (c.isAlphanum || c == '_') && rest.all isIdChar

def commentEndChars : Text := "-*/>\x7d%#!"

def isCommentEnd (token : Text) : Bool :=
  !token.isEmpty && token.all (· ∈ commentEndChars)

/-- A line that opens a block or adds a declaration to it. `lead` is all that stands before the
keyword, `trail` all that stands behind the target. -/
structure Start where
  lead : Text
  comment : Text
  id : Text
  checksum : Option Text
  target : Text
  targetOffset : Nat
  trail : Text
  commentEnd : Option Text
deriving DecidableEq, Repr

def Start.style (tag : Start) : CommentStyle :=
  ⟨tag.comment, tag.commentEnd⟩

/-- The declaration with another checksum and target; an empty checksum is left out. -/
def Start.render (tag : Start) (checksum target : Text) : Text :=
  tag.lead ++ startKeyword ++ tag.id ++
    (if checksum = [] then [] else ' ' :: checksum) ++ ' ' :: target ++ tag.trail

/-- A line that closes a block. -/
structure End where
  comment : Text
  id : Text
  commentEnd : Option Text
deriving DecidableEq, Repr

def End.style (tag : End) : CommentStyle :=
  ⟨tag.comment, tag.commentEnd⟩

/-- What keeps a line with a keyword from being a tag. -/
inductive Fault
  | missingId
  | invalidId (id : Text)
  | missingTarget (id : Text)
  | wordsAfterTarget (id : Text)
  | wordsAfterId (id : Text)
deriving DecidableEq, Repr

def Fault.id? : Fault → Option Text
  | .missingId => none
  | .invalidId id | .missingTarget id | .wordsAfterTarget id | .wordsAfterId id => some id

def Fault.message : Fault → Text
  | .missingId => "missing marker id"
  | .invalidId _ => "invalid marker id"
  | .missingTarget _ => "missing target"
  | .wordsAfterTarget _ => "unexpected tokens after target"
  | .wordsAfterId _ => "unexpected tokens after marker id"

inductive Line
  | start (tag : Start)
  | finish (tag : End)
  | badStart (fault : Fault)
  | badEnd (fault : Fault)
  | content
deriving DecidableEq, Repr

end Tag

end BlockSync
