import BlockSync.Command
import BlockSync.Options.File
import BlockSync.Report.Shown
import BlockSync.Run

/-! Executing a command in a directory. What the command says goes over the configuration file, and
that goes over the defaults. -/

namespace BlockSync.Command

/-- A written path, taken from a directory unless it starts at the top. -/
def absolute (base : Path) (written : Text) : Path :=
  if written.head? = some '/' ∨ base.text = [] then .ofText written
  else if base.text.getLast? = some '/' then .ofText (base.text ++ written)
  else .ofText (base.text ++ '/' :: written)

/-- The settings of a file. The path of their cache starts at the file's directory. -/
def loadConfig (d : Disk) (p : Path) : Except Failure Config :=
  (Config.load d p).map fun config =>
    match p.parent? with
    | none => config
    | some dir =>
      { config with cache? := config.cache?.map fun (path, mode) => ((absolute dir path).text, mode) }

def fileConfig (c : Command) (d : Disk) (cwd : Path) : Except Failure Config :=
  match c.config? with
  | some written => loadConfig d (absolute cwd written)
  | none =>
    match Config.discover d cwd with
    | some path => loadConfig d path
    | none => .ok .empty

def withMigrations (c : Command) (config : Config) : Config :=
  if c.migrateAll ∨ c.migrations ≠ [] then
    let (mode, mappings) := config.migration?.getD (.missing, [])
    { config with
      migration? :=
        some
          (if c.migrateAll then .all else mode,
           if c.migrations = [] then mappings else c.migrations) }
  else config

def cache? (c : Command) (cwd : Path) : Option (Text × CacheMode) :=
  match c.readCache?, c.writeCache? with
  | some path, _ => some ((absolute cwd path).text, .read)
  | none, some path => some ((absolute cwd path).text, .write)
  | none, none => none

def given? (values : List Text) : Option (List Text) :=
  if values = [] then none else some values

def config (c : Command) (cwd : Path) : Config :=
  { Config.empty with
    include? := given? c.includes
    exclude? := given? c.excludes
    comments? := given? c.comments
    autoFix? := some c.fix.isSome
    dryRun? := c.fix
    json? := if c.json then some true else none
    rootMarker? := c.rootMarker?
    allowEmptyTags? := if c.allowEmptyTags then some true else none
    cache? := c.cache? cwd }

def options (c : Command) (d : Disk) (cwd : Path) : Except Failure Options :=
  match c.fileConfig d cwd with
  | .error failure => .error failure
  | .ok config => Options.ofConfig ((c.withMigrations config).merge (c.config cwd))

/-- What a command prints, line by line, and how it ends. -/
structure Answer where
  printed : List Text
  result : Except Failure ExitCode

def document (cwd : Path) (outcome : Outcome) : Json :=
  .record
    [("exitCode", some (.natural outcome.exitCode.code)),
     ("summary", some outcome.summary.toJson),
     ("diagnostics", some (.array (outcome.notices.map (·.toJson cwd))))]

def heading (o : Options) : Text :=
  if o.autoFix && !o.dryRun then "=> Fixing tagged blocks..." else "=> Checking tagged blocks..."

/-- The last line, where there is more to say than the summary does. -/
def ending (o : Options) (exitCode : ExitCode) : List Text :=
  match exitCode, o.cache with
  | .noMatchingFiles, _ => ["NOTHING No files matched."]
  | .success, some (path, .write) => ["OK Wrote cache to " ++ path.text]
  | _, _ => []

def shown (cwd : Path) (o : Options) (outcome : Outcome) : List Text :=
  heading o ::
    (outcome.notices.map (·.shown cwd) ++ outcome.summary.shown ++ ending o outcome.exitCode)

def execute (c : Command) (d : Disk) (cwd : Path) : Answer × Disk :=
  match c.options d cwd with
  | .error failure => (⟨[], .error failure⟩, d)
  | .ok o =>
    match run d o (c.paths.map (absolute cwd)), o.json with
    | (.error failure, d), true => (⟨[], .error failure⟩, d)
    | (.error failure, d), false => (⟨[heading o], .error failure⟩, d)
    | (.ok outcome, d), true => (⟨[(document cwd outcome).pretty], .ok outcome.exitCode⟩, d)
    | (.ok outcome, d), false => (⟨shown cwd o outcome, .ok outcome.exitCode⟩, d)

end BlockSync.Command
