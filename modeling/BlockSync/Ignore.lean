import BlockSync.Glob.Parser
import BlockSync.Text.Line

/-! Rules that say which files a scan leaves out, one pattern a line. The last rule that matches
decides. A pattern without a slash matches in every directory below the rules. -/

namespace BlockSync.Ignore

inductive Verdict
  | skip
  | keep
deriving DecidableEq, Repr

def Verdict.invert : Verdict → Verdict
  | .skip => .keep
  | .keep => .skip

structure Rule where
  glob : Glob
  verdict : Verdict
  directoriesOnly : Bool

/-- What a line says before its pattern is read. -/
structure Draft where
  pattern : Text
  verdict : Verdict
  anchored : Bool
  directoriesOnly : Bool
deriving DecidableEq, Repr

def trimEnd (line : Text) : Text :=
  (line.reverse.dropWhile Text.isBlank).reverse

def endsWith (ending t : Text) : Bool :=
  List.isSuffixOf ending t

def Draft.ofStart (line : Text) : Draft :=
  match line with
  | '\\' :: '!' :: rest => ⟨'!' :: rest, .skip, false, false⟩
  | '\\' :: '#' :: rest => ⟨'#' :: rest, .skip, false, false⟩
  | '!' :: '/' :: rest => ⟨rest, .keep, true, false⟩
  | '!' :: rest => ⟨rest, .keep, false, false⟩
  | '/' :: rest => ⟨rest, .skip, true, false⟩
  | rest => ⟨rest, .skip, false, false⟩

/-- A slash at the end, escaped or not, asks for a directory. -/
def Draft.takeSlash (draft : Draft) : Draft :=
  if draft.pattern.getLast? = some '/' then
    let pattern := draft.pattern.dropLast
    { draft with
      pattern := if pattern.getLast? = some '\\' then pattern.dropLast else pattern
      directoriesOnly := true }
  else draft

def Draft.fullPattern (draft : Draft) : Text :=
  let pattern := draft.pattern
  let doubled := List.isPrefixOf ("**/" : Text) pattern || pattern = "**"
  let pattern :=
    if !draft.anchored && !pattern.contains '/' && !doubled then "**/" ++ pattern else pattern
  if endsWith "/**" pattern then pattern ++ "/*" else pattern

/-- The rule of a line; a comment or a blank line has none, and a bad pattern is an error. -/
def Rule.ofLine (lenient : Bool) (line : Text) : Except Unit (Option Rule) :=
  if line.head? = some '#' then .ok none
  else
    let line := if endsWith "\\ " line then line else trimEnd line
    if line = [] then .ok none
    else
      let draft := (Draft.ofStart line).takeSlash
      match Glob.parse? lenient draft.fullPattern with
      | none => .error ()
      | some glob => .ok (some ⟨glob, draft.verdict, draft.directoriesOnly⟩)

def Rule.applies (rule : Rule) (candidate : Text) (isDirectory : Bool) : Bool :=
  (isDirectory || !rule.directoriesOnly) && rule.glob.accepts (Text.Utf8.encode candidate)

/-- The rules of a file, and whether a line of it could not be read. -/
structure Rules where
  rules : List Rule
  faulty : Bool

namespace Rules

def empty : Rules := ⟨[], false⟩

def add (lenient : Bool) (rs : Rules) (line : Text) : Rules :=
  match Rule.ofLine lenient line with
  | .ok none => rs
  | .ok (some rule) => { rs with rules := rs.rules ++ [rule] }
  | .error () => { rs with faulty := true }

def ofLines (lines : List Text) : Rules :=
  match lines with
  | [] => empty
  | first :: rest =>
    (first.dropWhile (· = '\ufeff') :: rest).foldl (add true) empty

def verdict? (rs : Rules) (candidate : Text) (isDirectory : Bool) : Option Verdict :=
  (rs.rules.reverse.find? (·.applies candidate isDirectory)).map Rule.verdict

end Rules

/-- Patterns given by name: plain ones ask for files, those behind a `!` leave files out. -/
structure Selection where
  rules : Rules
  exclusive : Bool

namespace Selection

def ofPatterns (includes excludes : List Text) : Selection :=
  let rules :=
    (includes ++ excludes.map fun p => '!' :: p).foldl (Rules.add false) Rules.empty
  ⟨rules, rules.rules.any (·.verdict == .skip)⟩

/-- Once some files are asked for, all others are left out. -/
def verdict? (s : Selection) (candidate : Text) (isDirectory : Bool) : Option Verdict :=
  match s.rules.verdict? candidate isDirectory with
  | some verdict => some verdict.invert
  | none => if s.exclusive && !isDirectory then some .skip else none

end Selection

end BlockSync.Ignore
