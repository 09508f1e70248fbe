import BlockSync.Options

/-! Commands: what is to be scanned, and what is said about it. -/

namespace BlockSync

structure Command where
  /-- Nothing for a check, and for a repair whether it only runs dry. -/
  fix : Option Bool
  verbose : Bool
  json : Bool
  config? : Option Text
  /-- The paths as they are written, the current directory if there are none. -/
  paths : List Text
  includes : List Text
  excludes : List Text
  comments : List Text
  rootMarker? : Option Text
  allowEmptyTags : Bool
  migrations : List Mapping
  migrateAll : Bool
  readCache? : Option Text
  writeCache? : Option Text
deriving DecidableEq

end BlockSync
