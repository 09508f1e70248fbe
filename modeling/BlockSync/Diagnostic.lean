import BlockSync.Tag
import BlockSync.Text.Utf8

/-! What can be wrong with a file's tags, where, and how it may be repaired. -/

namespace BlockSync

inductive Problem
  | malformedStartTag
  | malformedEndTag
  | endTagWithoutStartTag
  | startTagWithoutEndTag
  | duplicateMarker
  | emptyMarker
  | selfTargeting
  | startTagAfterContent
  | differentCommentSyntax
  | couldNotParse
  | mismatchedChecksum
  | duplicateTarget
  | fileDoesNotExist
  | noReturnTag
  | pendingMigration
deriving DecidableEq, Repr

namespace Problem

def all : List Problem :=
  [.malformedStartTag, .malformedEndTag, .endTagWithoutStartTag, .startTagWithoutEndTag,
   .duplicateMarker, .emptyMarker, .selfTargeting, .startTagAfterContent,
   .differentCommentSyntax, .couldNotParse, .mismatchedChecksum, .duplicateTarget,
   .fileDoesNotExist, .noReturnTag, .pendingMigration]

def name : Problem → Text
  | .malformedStartTag => "malformedStartTag"
  | .malformedEndTag => "malformedEndTag"
  | .endTagWithoutStartTag => "endTagWithoutStartTag"
  | .startTagWithoutEndTag => "startTagWithoutEndTag"
  | .duplicateMarker => "duplicateMarker"
  | .emptyMarker => "emptyMarker"
  | .selfTargeting => "selfTargeting"
  | .startTagAfterContent => "startTagAfterContent"
  | .differentCommentSyntax => "differentCommentSyntax"
  | .couldNotParse => "couldNotParse"
  | .mismatchedChecksum => "mismatchedChecksum"
  | .duplicateTarget => "duplicateTarget"
  | .fileDoesNotExist => "fileDoesNotExist"
  | .noReturnTag => "noReturnTag"
  | .pendingMigration => "pendingMigration"

def ofName? (name : Text) : Option Problem :=
  all.find? (·.name = name)

end Problem

/-- A place in a file. Lines and columns count from one, columns in bytes. -/
structure Location where
  line : Nat
  startColumn : Option Nat
  endColumn : Option Nat
deriving DecidableEq, Repr

def Location.ofLine (line : Nat) : Location :=
  ⟨line, none, none⟩

/-- A repair of one line, which must still read `declaration`. -/
inductive Fix
  | delete (line : Nat) (description declaration : Text)
  | replace (line : Nat) (text description declaration : Text)
deriving DecidableEq, Repr

namespace Fix

def line : Fix → Nat
  | .delete line _ _ | .replace line _ _ _ => line

def description : Fix → Text
  | .delete _ description _ | .replace _ _ description _ => description

def declaration : Fix → Text
  | .delete _ _ declaration | .replace _ _ _ declaration => declaration

def isDelete : Fix → Bool
  | .delete .. => true
  | .replace .. => false

end Fix

structure Diagnostic where
  id : Option Text
  reason : Text
  problem : Problem
  location : Option Location
  fix : Option Fix
deriving DecidableEq, Repr

namespace Diagnostic

def line? (d : Diagnostic) : Option Nat :=
  d.location.map Location.line

def isFixable (d : Diagnostic) : Bool :=
  d.fix.isSome

def onLine (problem : Problem) (line : Nat) (id : Option Text) (reason : Text) : Diagnostic :=
  ⟨id, reason, problem, some (.ofLine line), none⟩

def malformedStartTag (line : Nat) (fault : Tag.Fault) : Diagnostic :=
  onLine .malformedStartTag line fault.id? ("Malformed sync-start tag: " ++ fault.message)

def malformedEndTag (line : Nat) (fault : Tag.Fault) : Diagnostic :=
  onLine .malformedEndTag line fault.id? ("Malformed sync-end tag: " ++ fault.message)

def endTagWithoutStartTag (line : Nat) (id : Text) : Diagnostic :=
  onLine .endTagWithoutStartTag line (some id)
    ("End tag for '" ++ id ++ "' has no matching start tag")

def startTagWithoutEndTag (line : Nat) (id : Text) : Diagnostic :=
  onLine .startTagWithoutEndTag line (some id)
    ("Start tag for '" ++ id ++ "' has no matching end tag")

def startTagAfterContent (line : Nat) (id : Text) : Diagnostic :=
  onLine .startTagAfterContent line (some id)
    ("Start tag for '" ++ id ++ "' appears after content")

def differentCommentSyntax (line : Nat) (id : Text) (used first : CommentStyle) : Diagnostic :=
  onLine .differentCommentSyntax line (some id)
    ("Marker '" ++ id ++ "' uses '" ++ used.text ++ "' but was first declared with '" ++
      first.text ++ "'")

def fileDoesNotExist (span : Location) (id target : Text) : Diagnostic :=
  ⟨some id, "Target file '" ++ target ++ "' does not exist", .fileDoesNotExist, some span, none⟩

/-- A second declaration of a target goes. -/
def duplicateTarget (span : Location) (id target declaration : Text) : Diagnostic :=
  ⟨some id, "Duplicate target '" ++ target ++ "' for '" ++ id ++ "'", .duplicateTarget, some span,
    some (.delete span.line ("Removed duplicate target '" ++ target ++ "' of '" ++ id ++ "'")
      declaration)⟩

def selfTargeting (line : Nat) (id : Text) : Diagnostic :=
  onLine .selfTargeting line (some id) ("Marker '" ++ id ++ "' targets its own file")

def duplicateMarker (line : Nat) (id : Text) : Diagnostic :=
  onLine .duplicateMarker line (some id) ("Marker '" ++ id ++ "' is declared more than once")

def emptyMarker (line : Nat) (id : Text) : Diagnostic :=
  onLine .emptyMarker line (some id) ("Marker '" ++ id ++ "' has no content")

def couldNotParse (reason : Text) : Diagnostic :=
  ⟨none, reason, .couldNotParse, none, none⟩

end Diagnostic

end BlockSync
