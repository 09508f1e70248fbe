import BlockSync.Diagnostic
import BlockSync.SortedMap
import BlockSync.Tag.Syntax
import BlockSync.Target
import BlockSync.Text.Line

/-! Blocks, found line by line. A start tag opens the block of its id or adds a declaration to it,
an end tag completes it, and a content line belongs to every open block. -/

namespace BlockSync

/-- A block whose end tag was reached. An end tag on its own completes a block without content
and declarations. -/
structure Block where
  id : Text
  content : List Text
  targets : SortedMap Nat Target
  comment : CommentStyle
  endLine : Nat
deriving DecidableEq

/-- The line of the first declaration, or that of the end tag. -/
def Block.firstLine (b : Block) : Nat :=
  b.targets.keys.headD b.endLine

namespace Block

structure Opened where
  content : List Text
  targets : SortedMap Nat Target
  comment : CommentStyle
deriving DecidableEq

inductive Event
  | problem (diagnostic : Diagnostic)
  | completed (block : Block)
deriving DecidableEq

/-- The number of lines read and the open blocks. -/
structure State where
  line : Nat
  opened : SortedMap Text Opened

def State.initial : State := ⟨0, ∅⟩

/-- What is wrong with one more declaration of an open block. -/
def declarationProblems (block : Opened) (line : Nat) (tag : Tag.Start) (declaration : Text)
    (resolved : Resolved) : List Diagnostic :=
  let span : Location :=
    ⟨line, some (tag.targetOffset + 1), some (tag.targetOffset + tag.target.byteLength)⟩
  (if resolved.kind.path?.isSome && !resolved.present then
    [.fileDoesNotExist span tag.id tag.target] else []) ++
  (if block.targets.values.any (·.kind == resolved.kind) then
    [.duplicateTarget span tag.id tag.target declaration] else []) ++
  (if block.comment != tag.style then
    [.differentCommentSyntax line tag.id tag.style block.comment] else []) ++
  (if !block.content.isEmpty then [.startTagAfterContent line tag.id] else [])

/-- The next line, with its terminator. -/
def feed (s : TagSyntax) (resolve : Text → Resolved) (state : State) (raw : Text) :
    State × List Event :=
  let line := state.line + 1
  let text := (Line.ofRaw raw).text
  match s.classify text with
  | .start tag =>
    let block := (state.opened.find? tag.id).getD ⟨[], ∅, tag.style⟩
    let resolved := resolve tag.target
    let target : Target := ⟨tag.target, resolved.kind, tag.checksum, text⟩
    (⟨line, state.opened.insert tag.id
        { block with targets := block.targets.insert line target }⟩,
      (declarationProblems block line tag text resolved).map .problem)
  | .finish tag =>
    match state.opened.find? tag.id with
    | some block =>
      (⟨line, state.opened.erase tag.id⟩,
        [.completed ⟨tag.id, block.content, block.targets, block.comment, line⟩])
    | none =>
      (⟨line, state.opened⟩,
        [.problem (.endTagWithoutStartTag line tag.id),
         .completed ⟨tag.id, [], ∅, tag.style, line⟩])
  | .badStart fault => (⟨line, state.opened⟩, [.problem (.malformedStartTag line fault)])
  | .badEnd fault => (⟨line, state.opened⟩, [.problem (.malformedEndTag line fault)])
  | .content =>
    (⟨line, state.opened.map fun _ block => { block with content := block.content ++ [raw] }⟩, [])

/-- Every declaration of a block that is still open lacks its end tag. -/
def finish (state : State) : List Event :=
  state.opened.entries.flatMap fun (id, block) =>
    block.targets.keys.map fun line => .problem (.startTagWithoutEndTag line id)

def feedAll (s : TagSyntax) (resolve : Text → Resolved) :
    State → List Text → State × List Event
  | state, [] => (state, [])
  | state, raw :: rest =>
    let (state, events) := feed s resolve state raw
    let (state, more) := feedAll s resolve state rest
    (state, events ++ more)

/-- All that a file's lines report, in order. -/
def events (s : TagSyntax) (resolve : Text → Resolved) (lines : List Text) : List Event :=
  let (state, events) := feedAll s resolve .initial lines
  events ++ finish state

end Block

end BlockSync
