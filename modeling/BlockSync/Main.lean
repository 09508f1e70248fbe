import BlockSync.Command.Arguments
import BlockSync.Command.Demands
import BlockSync.Disk.Changes

/-! The program. What a command looks at is read into a disk first; what the command changes there
is written back to the files afterwards, in place, so that they keep their modes. -/

namespace BlockSync.Main

open Disk (Entry)

def placeOf (t : Text) : Place :=
  (t.splitOn '/').filter (· ≠ [])

def nativePath (place : Place) := do
  return (← IO.currentDir) / String.ofList (Disk.placeText place)

/-- The place behind all links on the way, or the place itself if it leads nowhere. -/
def realPlace (place : Place) : IO Place := do
  try
    return placeOf (← IO.FS.realPath (← nativePath place)).toString.toList
  catch _ => return place

/-- What stands at a place. A file that is not to be read counts as empty. -/
def entryAt (isRead : Bool) (place : Place) : IO (Option Entry) := do
  try
    let path ← nativePath place
    match (← path.symlinkMetadata).type with
    | .file =>
      if isRead then return some (.file (← IO.FS.readBinFile path).toList Disk.Modes.usual.file)
      else return some (.file [] Disk.Modes.usual.file)
    | .dir => return some .directory
    | .symlink => return some (.link (Disk.placeText (← realPlace place)))
    | .other => return none
  catch _ => return none

def childNames (place : Place) : IO (List Text) := do
  try
    return (← (← nativePath place).readDir).toList.map (·.fileName.toList)
  catch _ => return []

/-- Reads what stands at a place, unless it is known. -/
def learn (isRead : Bool) (d : Disk) (place : Place) : IO Disk := do
  if (d.entry? place).isSome then return d
  else
    match ← entryAt isRead place with
    | some entry => return d.set place entry
    | none => return d

def learnExclusions (d : Disk) (place : Place) : IO Disk :=
  [[".git"], [".git", "info"], [".git", "info", "exclude"]].foldlM
    (fun d (below : List String) => learn true d (place ++ below.map String.toList)) d

/-- Reads the names in a directory, and the files that say something about those below it. -/
def learnNames (d : Disk) (place : Place) : IO Disk := do
  let telling := Enumerate.ruleFileNames ++ Config.fileNames
  let d ← learn false d place
  let d ← learnExclusions d place
  (← childNames place).foldlM (fun d name => learn (telling.contains name) d (place ++ [name])) d

def learnWay (d : Disk) (place : Place) : IO Disk :=
  ((List.range place.length).map (place.take ·)).foldlM learnNames d

/-- Reads a file, or all files below a directory. -/
partial def learnAll (d : Disk) (place : Place) : IO Disk := do
  match ← entryAt true place with
  | none => return d
  | some .directory =>
    let d := if place = [] then d else d.set place .directory
    if place.getLast? = some (".git" : Text) then return d
    else
      let d ← learnExclusions d place
      (← childNames place).foldlM (fun d name => learnAll d (place ++ [name])) d
  | some entry => return d.set place entry

def learnPath (d : Disk) (p : Path) : IO Disk := do
  let place := placeOf p.text
  let real ← realPlace place
  let d ← learnWay d real
  let d ← if real = place then pure d else learnWay d place
  learnAll d real

def writeBack (before : Disk) (change : Place × Option Entry) : IO Unit := do
  let path ← nativePath change.1
  match change.2 with
  | none => IO.FS.removeFile path
  | some .directory => IO.FS.createDir path
  | some (.link _) => return
  | some (.file bytes _) =>
    match before.entries.find? change.1 with
    | some (.link _) => IO.FS.removeFile path
    | _ => pure ()
    IO.FS.writeBinFile path ⟨bytes.toArray⟩

def usage : List String :=
  ["Usage: tagsync [OPTIONS] <check|fix> [PATHS]...",
   "",
   "  -v, --verbose            -c, --config <CONFIG>    --json",
   "  --include <GLOB>         --exclude <GLOB>         --comment <TOKEN>",
   "  --root-marker <NAME>     --allow-empty-tags       --dry-run (fix only)",
   "  --migrate <FROM=TO>      --migrate-all",
   "  --read-cache <FILE>      --write-cache <FILE>"]

/-- Looks three times at what the command asks for: for its settings, for the files that it scans,
and for those that they point at. -/
def execute (c : Command) : IO UInt32 := do
  let here ← realPlace (placeOf (← IO.currentDir).toString.toList)
  let cwd := Path.ofText (Disk.placeText here)
  let empty : Disk := ⟨∅, here, (← IO.monoMsNow), .usual⟩
  let mut d ← learnNames (← learnWay empty here) here
  for _ in [0:3] do
    d ← (c.demands d cwd).foldlM learnPath d
  let (answer, after) := c.execute d cwd
  answer.printed.forM fun line => IO.println (String.ofList line)
  (d.changes after).forM (writeBack d)
  match answer.result with
  | .ok exitCode => return UInt32.ofNat exitCode.code
  | .error failure =>
    IO.eprintln (String.ofList ("error: " ++ failure.message))
    return UInt32.ofNat ExitCode.fatal.code

end BlockSync.Main

def main (arguments : List String) : IO UInt32 := do
  let preset ← IO.getEnv "TAGSYNC_CONFIG"
  match BlockSync.Command.ofArguments (preset.map String.toList)
      (arguments.map String.toList) with
  | .ok c => BlockSync.Main.execute c
  | .error .help =>
    BlockSync.Main.usage.forM IO.println
    return 0
  | .error .refused =>
    BlockSync.Main.usage.forM IO.eprintln
    return 1
