import BlockSync.Disk
import BlockSync.Ignore
import BlockSync.Options

/-! Which files a run scans. Files that are named are taken as they are; directories are walked,
leaving out what the selection or the ignore rules of the directories above say. -/

namespace BlockSync.Enumerate

open Ignore (Rules Selection Verdict)

/-- The rule files of one directory, the weightiest first. -/
structure Level where
  place : Place
  files : List Rules

def ownIgnoreFile : Text := ".tagsyncignore"

def ruleFileNames : List Text :=
  [ownIgnoreFile, ".ignore", ".gitignore", ".git/info/exclude"]

/-- The rules in a file, up to the first line that is no text. -/
def readRules (d : Disk) (path : Text) : Rules :=
  match d.find path with
  | .ok (_, .file bytes _) => .ofLines ((Line.read bytes).lines.map Line.text)
  | _ => .empty

def levelAt (d : Disk) (place : Place) : Level :=
  ⟨place, ruleFileNames.map fun name => readRules d (Disk.placeText place ++ '/' :: name)⟩

/-- All places on the way to a place, the top first, without the place itself. -/
def above (place : Place) : List Place :=
  (List.range place.length).map (place.take ·)

def below (base place : Place) : Text :=
  Text.joinWith "/" (place.drop base.length)

/-- What the nearest rule file of one sort says that says anything. -/
def sortVerdict? (levels : List Level) (sort : Nat) (place : Place) (isDirectory : Bool) :
    Option Verdict :=
  levels.reverse.findSome? fun level =>
    (level.files[sort]?.getD .empty).verdict? (below level.place place) isDirectory

/-- What the rule files of the directories above say, the top one coming first in `levels`. -/
def levelVerdict? (levels : List Level) (place : Place) (isDirectory : Bool) :
    Option Verdict :=
  (List.range ruleFileNames.length).findSome? fun sort =>
    sortVerdict? levels sort place isDirectory

/-- What the named ignore files say of a path; the last one weighs most. -/
def namedVerdict? (named : List Rules) (path : Text) (isDirectory : Bool) : Option Verdict :=
  let path := (Text.after? "./" path).getD path
  let path := (Text.after? "/" path).getD path
  named.reverse.findSome? (·.verdict? path isDirectory)

/-- A walk from a directory: the path it was named by and the place where it is. -/
structure Walk where
  root : Text
  base : Place
  selection : Selection
  named : List Rules

def Walk.pathOf (w : Walk) (place : Place) : Text :=
  if w.root.getLast? = some '/' then w.root ++ below w.base place
  else w.root ++ '/' :: below w.base place

def Walk.skips (w : Walk) (d : Disk) (place : Place) (isDirectory : Bool) : Bool :=
  place.getLast? == some (".git" : Text) ||
    match w.selection.verdict? (below w.base place) isDirectory with
    | some verdict => verdict == .skip
    | none =>
      let levels := (above place).map (levelAt d)
      match levelVerdict? levels place isDirectory with
      | some verdict => verdict == .skip
      | none => namedVerdict? w.named (w.pathOf place) isDirectory == some .skip

/-- Whether a walk comes to a file: neither it nor a directory on the way is left out. -/
def Walk.reaches (w : Walk) (d : Disk) (place : Place) : Bool :=
  w.base.isPrefixOf place && w.base.length < place.length &&
    ((above place).filter (w.base.length < ·.length)).all (fun dir => !w.skips d dir true) &&
    !w.skips d place false

/-- The files below a directory. Patterns that cannot be read end the run, but those in ignore
files only if they stand in a directory above. -/
def walk (d : Disk) (o : Options) (dir : Path) : Except Failure (List Path) :=
  let selection := Selection.ofPatterns o.includes o.excludes
  if selection.rules.faulty then .error .badGlob
  else
    match d.find dir.text with
    | .error _ => .ok []
    | .ok (base, _) =>
      if dir.text = "-" then .ok []
      else if (above base).any fun place => (levelAt d place).files.any Rules.faulty then
        .error .badGlob
      else
        let w : Walk := ⟨dir.text, base, selection, o.ignoreFiles.map (readRules d)⟩
        .ok
          (d.entries.entries.filterMap fun (place, entry) =>
            match entry with
            | .file _ _ => if w.reaches d place then some (.ofText (w.pathOf place)) else none
            | _ => none)

/-- The files of all paths, in the order of the paths. -/
def collect (d : Disk) (o : Options) : List Path → Except Failure (List Path)
  | [] => .ok []
  | p :: rest =>
    let here : Except Failure (List Path) :=
      if d.isFile p then .ok [p] else if d.isDirectory p then walk d o p else .ok []
    match here, collect d o rest with
    | .error failure, _ => .error failure
    | .ok _, .error failure => .error failure
    | .ok files, .ok more => .ok (files ++ more)

/-- The files to scan, sorted and each once. -/
def enumerate (d : Disk) (o : Options) (paths : List Path) : Except Failure (List Path) :=
  (collect d o paths).map fun files =>
    (files.mergeSort fun p q => Text.le p.text q.text).eraseReps

end BlockSync.Enumerate
