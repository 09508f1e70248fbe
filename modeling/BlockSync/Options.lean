import BlockSync.Migration
import BlockSync.Tag.Syntax

/-! Settings as they are written, layer over layer, and the options of a run that they amount to. -/

namespace BlockSync

inductive CacheMode
  | read
  | write
deriving DecidableEq, Repr

def CacheMode.name : CacheMode → Text
  | .read => "read"
  | .write => "write"

/-- Settings, each of which may be left open. -/
structure Config where
  include? : Option (List Text)
  exclude? : Option (List Text)
  ignoreFiles? : Option (List Text)
  comments? : Option (List Text)
  autoFix? : Option Bool
  dryRun? : Option Bool
  json? : Option Bool
  rootMarker? : Option Text
  allowEmptyTags? : Option Bool
  migration? : Option (MigrationMode × List Mapping)
  cache? : Option (Text × CacheMode)
deriving DecidableEq

namespace Config

def empty : Config :=
  ⟨none, none, none, none, none, none, none, none, none, none, none⟩

/-- What `upper` leaves open is taken from `lower`. -/
def merge (lower upper : Config) : Config where
  include? := upper.include?.or lower.include?
  exclude? := upper.exclude?.or lower.exclude?
  ignoreFiles? := upper.ignoreFiles?.or lower.ignoreFiles?
  comments? := upper.comments?.or lower.comments?
  autoFix? := upper.autoFix?.or lower.autoFix?
  dryRun? := upper.dryRun?.or lower.dryRun?
  json? := upper.json?.or lower.json?
  rootMarker? := upper.rootMarker?.or lower.rootMarker?
  allowEmptyTags? := upper.allowEmptyTags?.or lower.allowEmptyTags?
  migration? := upper.migration?.or lower.migration?
  cache? := upper.cache?.or lower.cache?

end Config

structure Options where
  includes : List Text
  excludes : List Text
  ignoreFiles : List Text
  comments : List Text
  autoFix : Bool
  dryRun : Bool
  json : Bool
  rootMarker : Text
  allowEmptyTags : Bool
  migrations : Migrations
  cache : Option (Path × CacheMode)
deriving DecidableEq

namespace Options

def defaultRootMarker : Text := ".git"

def commentFault? (comments : List Text) : Option OptionFault :=
  if comments = [] then some .noComments
  else (comments.find? fun c => c.isEmpty || c.any Text.isBlank).map .badComment

def rootMarkerFault? (marker : Text) : Option OptionFault :=
  if marker = [] ∨ '/' ∈ marker then some (.badRootMarker marker) else none

def checkedMigrations (given : Option (MigrationMode × List Mapping)) :
    Except MigrationFault Migrations :=
  match given with
  | none => .ok .none
  | some (mode, mappings) => Migrations.ofMappings mode mappings

/-- Fills in what is left open. Comments are looked at first, then the root marker, then the
migrations. -/
def ofConfig (config : Config) : Except Failure Options :=
  let comments := config.comments?.getD TagSyntax.defaultComments
  let rootMarker := config.rootMarker?.getD defaultRootMarker
  match commentFault? comments, rootMarkerFault? rootMarker,
      checkedMigrations config.migration? with
  | some fault, _, _ => .error (.invalidOption fault)
  | none, some fault, _ => .error (.invalidOption fault)
  | none, none, .error fault => .error (.invalidMigration fault)
  | none, none, .ok migrations =>
    .ok
      { includes := config.include?.getD []
        excludes := config.exclude?.getD []
        ignoreFiles := config.ignoreFiles?.getD []
        comments
        autoFix := config.autoFix?.getD false
        dryRun := config.dryRun?.getD false
        json := config.json?.getD false
        rootMarker
        allowEmptyTags := config.allowEmptyTags?.getD false
        migrations
        cache := config.cache?.map fun (path, mode) => (.ofText path, mode) }

def tagSyntax (o : Options) : TagSyntax :=
  .ofComments o.comments

end Options

end BlockSync
