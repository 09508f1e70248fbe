import BlockSync.Command.Execute
import BlockSync.Proofs.Disk.Canonical
import BlockSync.Proofs.Migration.Longest
import BlockSync.Proofs.Options
import BlockSync.Proofs.Text.Utf8

/-! The layers that the options of a command come from. What the command gives goes over what the
configuration file says, and that goes over the defaults, setting by setting. A repair is an
exception: it always says whether it runs dry, so that the file is not asked. -/

namespace BlockSync.Command

open Migrations (Consistent)

variable {α : Type} {c : Command} {d : Disk} {cwd : Path} {file : Config} {o : Options}

/-- The value that the command gives, or else that of the file, or else the default. -/
def pick (given written : Option α) (fallback : α) : α :=
  match given, written with
  | some value, _ => value
  | none, some value => value
  | none, none => fallback

/-- A switch is given by being on. -/
def switched (on : Bool) : Option Bool :=
  if on then some true else none

/-- What is given by repeating an option. -/
def repeated : List α → Option (List α)
  | [] => none
  | values => some values

def givenMode? (c : Command) : Option MigrationMode :=
  if c.migrateAll then some .all else none

/-- The cache that the command names, from its working directory. -/
def givenCache? (c : Command) (cwd : Path) : Option (Path × CacheMode) :=
  (c.readCache?.map fun path => (absolute cwd path, .read)).or
    (c.writeCache?.map fun path => (absolute cwd path, .write))

/-- The configuration file, which the command names or which is the nearest one. -/
def source? (c : Command) (d : Disk) (cwd : Path) : Option Path :=
  match c.config? with
  | some written => some (absolute cwd written)
  | none => Config.discover d cwd

/-- The file can be read and has these settings; without a file there are none. -/
def Loads (d : Disk) (source? : Option Path) (file : Config) : Prop :=
  match source? with
  | some path => Config.load d path = .ok file
  | none => file = .empty

/-- The cache that the file names, from the directory of the file. -/
def writtenCache? (source? : Option Path) (file : Config) : Option (Path × CacheMode) :=
  file.cache?.map fun (written, mode) =>
    match source?.bind Path.parent? with
    | some dir => (absolute dir written, mode)
    | none => (.ofText written, mode)

/-- Each of the options but whether to run dry comes from the uppermost layer that has it. A check
never repairs and a repair always does. -/
structure LayeredBesides (c : Command) (cwd : Path) (source? : Option Path) (file : Config)
    (o : Options) : Prop where
  includes : o.includes = pick (repeated c.includes) file.include? []
  excludes : o.excludes = pick (repeated c.excludes) file.exclude? []
  ignoreFiles : o.ignoreFiles = pick none file.ignoreFiles? []
  comments : o.comments = pick (repeated c.comments) file.comments? TagSyntax.defaultComments
  autoFix : o.autoFix = c.fix.isSome
  json : o.json = pick (switched c.json) file.json? false
  rootMarker : o.rootMarker = pick c.rootMarker? file.rootMarker? Options.defaultRootMarker
  allowEmptyTags : o.allowEmptyTags = pick (switched c.allowEmptyTags) file.allowEmptyTags? false
  mode : o.migrations.mode = pick c.givenMode? (file.migration?.map Prod.fst) .missing
  mappings : ∀ source destination, o.migrations.mappings.find? source = some destination ↔
    ⟨source, destination⟩ ∈ pick (repeated c.migrations) (file.migration?.map Prod.snd) []
  cache : o.cache = (c.givenCache? cwd).or (writtenCache? source? file)

/-- All of the options come from the uppermost layer that has them. -/
structure Layered (c : Command) (cwd : Path) (source? : Option Path) (file : Config) (o : Options) :
    Prop extends LayeredBesides c cwd source? file o where
  dryRun : o.dryRun = pick (switched (c.fix == some true)) file.dryRun? false

/-- What is picked of the settings that can be wrong is not. -/
structure Sound (c : Command) (file : Config) : Prop where
  comments : Options.commentFault?
    (pick (repeated c.comments) file.comments? TagSyntax.defaultComments) = none
  rootMarker : Options.rootMarkerFault?
    (pick c.rootMarker? file.rootMarker? Options.defaultRootMarker) = none
  mappings : Consistent (pick (repeated c.migrations) (file.migration?.map Prod.snd) [])

theorem getD_or (given written : Option α) (fallback : α) :
    (given.or written).getD fallback = pick given written fallback := by
  cases given with
  | some value => rfl
  | none =>
    cases written with
    | some value => rfl
    | none => rfl

theorem given?_eq (values : List Text) : given? values = repeated values := by
  cases values with
  | nil => rfl
  | cons value values => rfl

/-- Reading a configuration file changes nothing but the spelling of its cache's path. -/
theorem loadConfig_of_load {p : Path} (hp : Config.load d p = .ok file) :
    ∃ cache?, loadConfig d p = .ok { file with cache? } ∧
      (cache?.map fun (path, mode) => (Path.ofText path, mode)) = writtenCache? (some p) file := by
  unfold loadConfig writtenCache?
  rw [hp, Option.bind_some]
  cases p.parent? with
  | none => exact ⟨_, rfl, rfl⟩
  | some dir =>
    refine ⟨_, rfl, ?_⟩
    rw [Option.map_map]
    refine Option.map_congr fun (path, mode) _ => ?_
    exact congrArg (·, mode) (Path.ofText_text _)

theorem fileConfig_of_loads (hf : Loads d (c.source? d cwd) file) :
    ∃ cache?, c.fileConfig d cwd = .ok { file with cache? } ∧
      (cache?.map fun (path, mode) => (Path.ofText path, mode)) =
        writtenCache? (c.source? d cwd) file := by
  unfold fileConfig
  unfold source? at hf ⊢
  cases hc : c.config? with
  | some written =>
    rw [hc] at hf
    exact loadConfig_of_load hf
  | none =>
    rw [hc] at hf
    dsimp only at hf ⊢
    cases hs : Config.discover d cwd with
    | some p =>
      rw [hs] at hf
      exact loadConfig_of_load hf
    | none =>
      rw [hs] at hf
      obtain rfl : file = .empty := hf
      exact ⟨none, rfl, rfl⟩

/-- Mode and mappings of the migrations are layered each on its own. -/
theorem withMigrations_eq (c : Command) (config : Config) : ∃ migration?,
    c.withMigrations config = { config with migration? } ∧
      Options.checkedMigrations migration? =
        Migrations.ofMappings (pick c.givenMode? (config.migration?.map Prod.fst) .missing)
          (pick (repeated c.migrations) (config.migration?.map Prod.snd) []) := by
  unfold withMigrations givenMode?
  cases hall : c.migrateAll with
  | true =>
    cases hm : c.migrations with
    | nil =>
      cases config.migration? with
      | none => exact ⟨_, rfl, rfl⟩
      | some written => exact ⟨_, rfl, rfl⟩
    | cons e rest => exact ⟨_, rfl, rfl⟩
  | false =>
    cases hm : c.migrations with
    | nil =>
      cases hw : config.migration? with
      | none => exact ⟨none, by simp [← hw], rfl⟩
      | some written => exact ⟨some written, by simp [← hw], rfl⟩
    | cons e rest =>
      cases config.migration? with
      | none => exact ⟨_, rfl, rfl⟩
      | some written => exact ⟨_, rfl, rfl⟩

theorem map_cache? (c : Command) (cwd : Path) :
    ((c.cache? cwd).map fun (path, mode) => (Path.ofText path, mode)) = c.givenCache? cwd := by
  unfold cache? givenCache?
  cases c.readCache? with
  | some path => exact congrArg (fun p => some (p, CacheMode.read)) (Path.ofText_text _)
  | none =>
    cases c.writeCache? with
    | some path => exact congrArg (fun p => some (p, CacheMode.write)) (Path.ofText_text _)
    | none => rfl

/-- The options are those of the file's settings with the command's settings over them. -/
theorem options_of_loads (hf : Loads d (c.source? d cwd) file) : ∃ cache? migration?,
    c.options d cwd =
        Options.ofConfig (Config.merge { file with cache?, migration? } (c.config cwd)) ∧
      (cache?.map fun (path, mode) => (Path.ofText path, mode)) =
        writtenCache? (c.source? d cwd) file ∧
      Options.checkedMigrations migration? =
        Migrations.ofMappings (pick c.givenMode? (file.migration?.map Prod.fst) .missing)
          (pick (repeated c.migrations) (file.migration?.map Prod.snd) []) := by
  obtain ⟨cache?, hconfig, hcache⟩ := fileConfig_of_loads hf
  obtain ⟨migration?, hover, hmigrations⟩ := withMigrations_eq c { file with cache? }
  refine ⟨cache?, migration?, ?_, hcache, hmigrations⟩
  rw [options, hconfig]
  exact congrArg (fun lower => Options.ofConfig (Config.merge lower (c.config cwd))) hover

theorem layeredBesides_of_options (hf : Loads d (c.source? d cwd) file)
    (ho : c.options d cwd = .ok o) : LayeredBesides c cwd (c.source? d cwd) file o := by
  obtain ⟨cache?, migration?, hoptions, hcache, hmigrations⟩ := options_of_loads hf
  have hfills := Options.fills_of_ofConfig (hoptions.symm.trans ho)
  have hmapped := hmigrations.symm.trans hfills.migrations
  constructor
  case includes => rw [hfills.includes, ← getD_or, ← given?_eq]; rfl
  case excludes => rw [hfills.excludes, ← getD_or, ← given?_eq]; rfl
  case ignoreFiles => rw [hfills.ignoreFiles, ← getD_or]; rfl
  case comments => rw [hfills.comments, ← getD_or, ← given?_eq]; rfl
  case autoFix => exact hfills.autoFix
  case json => rw [hfills.json, ← getD_or]; rfl
  case rootMarker => rw [hfills.rootMarker, ← getD_or]; rfl
  case allowEmptyTags => rw [hfills.allowEmptyTags, ← getD_or]; rfl
  case mode => exact (Migrations.ofMappings_eq_ok_iff.mp hmapped).1
  case mappings => exact fun source destination => Migrations.find?_ofMappings hmapped
  case cache =>
    rw [hfills.cache, ← hcache, ← map_cache?, ← Option.map_or]
    rfl

theorem dryRun_of_options (hf : Loads d (c.source? d cwd) file) (ho : c.options d cwd = .ok o) :
    o.dryRun = pick c.fix file.dryRun? false := by
  obtain ⟨cache?, migration?, hoptions, -⟩ := options_of_loads hf
  rw [(Options.fills_of_ofConfig (hoptions.symm.trans ho)).dryRun, ← getD_or]
  rfl

/-- A command has options if what is picked for it is sound. -/
theorem exists_options_iff (hf : Loads d (c.source? d cwd) file) :
    (∃ o, c.options d cwd = .ok o) ↔ Sound c file := by
  obtain ⟨cache?, migration?, hoptions, -, hmigrations⟩ := options_of_loads hf
  have hcomments : (Config.merge { file with cache?, migration? } (c.config cwd)).comments?.getD
      TagSyntax.defaultComments =
        pick (repeated c.comments) file.comments? TagSyntax.defaultComments := by
    rw [← getD_or, ← given?_eq]
    rfl
  have hmarker : (Config.merge { file with cache?, migration? } (c.config cwd)).rootMarker?.getD
      Options.defaultRootMarker =
        pick c.rootMarker? file.rootMarker? Options.defaultRootMarker := by
    rw [← getD_or]
    rfl
  have hchecked : Options.checkedMigrations
      (Config.merge { file with cache?, migration? } (c.config cwd)).migration? =
        Options.checkedMigrations migration? := rfl
  rw [hoptions, Options.exists_ofConfig_iff, hcomments, hmarker, hchecked, hmigrations,
    Migrations.exists_ofMappings_iff]
  exact ⟨fun h => ⟨h.1, h.2.1, h.2.2⟩, fun h => ⟨h.comments, h.rootMarker, h.mappings⟩⟩

/-- Only a repair that is not said to run dry does not ask the file about that, which shows exactly if
the file says so. -/
theorem pick_fix_iff (fix written : Option Bool) :
    pick fix written false = pick (switched (fix == some true)) written false ↔
      ¬(fix = some false ∧ written = some true) := by
  rcases fix with _ | _ | _
  · simp [switched]
  · rcases written with _ | _ | _
    · simp [pick, switched]
    · simp [pick, switched]
    · simp [pick, switched]
  · simp [pick, switched]

/-- Options are there if what is picked for them is sound, and each of them comes from the uppermost
layer that has it, unless a repair meets a file that asks for dry runs: then it does not run dry. -/
theorem layered_options_iff (hf : Loads d (c.source? d cwd) file) :
    ((∃ o, c.options d cwd = .ok o) ↔ Sound c file) ∧
      ∀ o, c.options d cwd = .ok o →
        LayeredBesides c cwd (c.source? d cwd) file o ∧
          (Layered c cwd (c.source? d cwd) file o ↔
            ¬(c.fix = some false ∧ file.dryRun? = some true)) ∧
          (c.fix = some false → o.dryRun = false) := by
  refine ⟨exists_options_iff hf, fun o ho => ?_⟩
  have hbesides := layeredBesides_of_options hf ho
  have hdry := dryRun_of_options hf ho
  refine ⟨hbesides, ?_, fun hfix => ?_⟩
  · rw [← pick_fix_iff, ← hdry]
    exact ⟨fun h => h.dryRun, fun h => ⟨hbesides, h⟩⟩
  · rw [hdry, hfix]
    rfl

/-- A file that asks for dry runs and for a report in JSON. -/
def dryDisk : Disk :=
  Disk.bare.set ["tagsync.toml"] (.file (Text.Utf8.encode "dry_run = true\njson = true\n") 0o644#12)

/-- A repair of the working directory, without any options. -/
def plainFix : Command where
  fix := some false
  verbose := false
  json := false
  config? := none
  paths := ["."]
  includes := []
  excludes := []
  comments := []
  rootMarker? := none
  allowEmptyTags := false
  migrations := []
  migrateAll := false
  readCache? := none
  writeCache? := none

theorem load_dryDisk : Config.load dryDisk (.ofText "/tagsync.toml") =
    .ok { Config.empty with dryRun? := some true, json? := some true } := by
  have hfind : dryDisk.find "/tagsync.toml" =
      .ok (["tagsync.toml"],
        .file (Text.Utf8.encode "dry_run = true\njson = true\n") 0o644#12) := by
    decide +kernel
  have htext : dryDisk.text (.ofText "/tagsync.toml") =
      .ok "dry_run = true\njson = true\n" := by
    rw [Disk.text, show (Path.ofText "/tagsync.toml").text = "/tagsync.toml" from by decide, hfind]
    simp only [Text.Utf8.decode_encode]
  have hparse : Config.parse? .toml "dry_run = true\njson = true\n" =
      some { Config.empty with dryRun? := some true, json? := some true } := by
    decide +kernel
  rw [Config.load, show Notation.ofPath (.ofText "/tagsync.toml") = .ok .toml from rfl, htext]
  simp only [hparse]

/-- The repair reports in JSON as the file says, and yet it does not run dry. -/
theorem layered_plainFix :
    ∃ o, plainFix.options dryDisk (.ofText "/") = .ok o ∧ o.json = true ∧ o.dryRun = false ∧
      ¬Layered plainFix (.ofText "/") (some (.ofText "/tagsync.toml"))
        { Config.empty with dryRun? := some true, json? := some true } o := by
  have hsource : plainFix.source? dryDisk (.ofText "/") = some (.ofText "/tagsync.toml") := by
    decide +kernel
  have hf : Loads dryDisk (plainFix.source? dryDisk (.ofText "/"))
      { Config.empty with dryRun? := some true, json? := some true } := by
    rw [hsource]
    exact load_dryDisk
  obtain ⟨hsound, hlayers⟩ := layered_options_iff hf
  obtain ⟨o, ho⟩ := hsound.mpr ⟨by decide, by decide, by decide, by decide⟩
  obtain ⟨hbesides, hiff, hdry⟩ := hlayers o ho
  rw [hsource] at hiff
  exact ⟨o, ho, hbesides.json, hdry rfl, fun h => hiff.mp h ⟨rfl, rfl⟩⟩

end BlockSync.Command
