import BlockSync.Json.Document
import BlockSync.Options

/-! Settings as a record, in any notation that records can be written in. A setting that no one
knows is refused, and a null one is left open. -/

namespace BlockSync

open Document (Field record? required optional orElse listOf? text? bool? variant?)

variable {δ : Type} [Document δ]

def MigrationMode.ofName? (name : Text) : Option MigrationMode :=
  if name = "missing" then some .missing else if name = "all" then some .all else none

def CacheMode.ofName? (name : Text) : Option CacheMode :=
  if name = "read" then some .read else if name = "write" then some .write else none

def Mapping.read? (v : δ) : Option Mapping :=
  match record? false [⟨"from", false⟩, ⟨"to", false⟩] v with
  | some [source, destination] => do
    some ⟨← required text? source, ← required text? destination⟩
  | _ => none

namespace Config

def readMigration? (v : δ) : Option (MigrationMode × List Mapping) :=
  match record? true [⟨"mode", true⟩, ⟨"mappings", true⟩] v with
  | some [mode, mappings] => do
    some
      (← orElse .missing (fun d => (variant? d).bind MigrationMode.ofName?) mode,
       ← orElse [] (listOf? Mapping.read?) mappings)
  | _ => none

def readCache? (v : δ) : Option (Text × CacheMode) :=
  match record? true [⟨"path", false⟩, ⟨"mode", false⟩] v with
  | some [path, mode] => do
    some (← required text? path, ← required (fun d => (variant? d).bind CacheMode.ofName?) mode)
  | _ => none

def fieldNames : List Text :=
  ["include", "exclude", "ignore_files", "comments", "auto_fix", "dry_run", "json",
   "root_marker", "allow_empty_tags", "migration", "cache"]

def read? (v : δ) : Option Config :=
  match record? true (fieldNames.map (⟨·, true⟩)) v with
  | some [includes, excludes, ignoreFiles, comments, autoFix, dryRun, json, rootMarker,
      allowEmptyTags, migration, cache] => do
    some
      { include? := ← optional (listOf? text?) includes
        exclude? := ← optional (listOf? text?) excludes
        ignoreFiles? := ← optional (listOf? text?) ignoreFiles
        comments? := ← optional (listOf? text?) comments
        autoFix? := ← optional bool? autoFix
        dryRun? := ← optional bool? dryRun
        json? := ← optional bool? json
        rootMarker? := ← optional text? rootMarker
        allowEmptyTags? := ← optional bool? allowEmptyTags
        migration? := ← optional readMigration? migration
        cache? := ← optional readCache? cache }
  | _ => none

end Config

end BlockSync
