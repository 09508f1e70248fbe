import BlockSync.Disk.Writer

/-! What ends a run. What is wrong inside a scanned file does not: that is a diagnostic. -/

namespace BlockSync

/-- A notation for configuration files. -/
inductive Notation
  | toml
  | json
  | yaml
deriving DecidableEq, Repr

def Notation.name : Notation → Text
  | .toml => "TOML"
  | .json => "JSON"
  | .yaml => "YAML"

/-- What a list of migrations may not contain. -/
inductive MigrationFault
  | emptySource
  | twoDestinations (source first second : Text)
deriving DecidableEq, Repr

inductive OptionFault
  | noComments
  | badComment (comment : Text)
  | badRootMarker (marker : Text)
deriving DecidableEq, Repr

/-- Calls to a report that come out of order. -/
inductive Misuse
  | startWhileActive (started active : Text)
  | pushWithoutFile
  | endWithoutFile
  | neverEnded (active : Text)
deriving DecidableEq, Repr

inductive Failure
  | refused (refusal : Disk.Refusal)
  | disk (cause : Disk.Cause)
  | badConfig (style : Notation) (path : Text)
  | unsupportedFormat (extension : Text)
  | invalidMigration (fault : MigrationFault)
  | invalidOption (fault : OptionFault)
  | misuse (fault : Misuse)
  | unusableCache (path : Text)
  | staleFixes (path : Text) (expected applied : Nat)
  | badGlob
deriving DecidableEq

namespace Failure

def migrationMessage : MigrationFault → Text
  | .emptySource => "Invalid migration mapping for '': source prefix is empty"
  | .twoDestinations source first second =>
    "Invalid migration mapping for '" ++ source ++ "': mapped to both '" ++ first ++ "' and '" ++
      second ++ "'"

def optionMessage : OptionFault → Text
  | .noComments => "Invalid option 'comments': at least one comment start is required"
  | .badComment comment =>
    "Invalid option 'comments': '" ++ comment ++ "' must be non-empty and contain no whitespace"
  | .badRootMarker marker =>
    "Invalid option 'root_marker': '" ++ marker ++ "' must be a single file or directory name"

def misuseMessage : Misuse → Text
  | .startWhileActive started active =>
    "Output sink misuse: cannot start '" ++ started ++ "' while '" ++ active ++ "' is active"
  | .pushWithoutFile => "Output sink misuse: error pushed with no active file"
  | .endWithoutFile => "Output sink misuse: end_file called with no active file"
  | .neverEnded active => "Output sink misuse: '" ++ active ++ "' was never ended"

def message : Failure → Text
  | .refused refusal => refusal.message
  | .disk cause => cause.message
  | .badConfig style path => "Failed to parse " ++ style.name ++ " config at " ++ path
  | .unsupportedFormat extension => "Unsupported config format: " ++ extension
  | .invalidMigration fault => migrationMessage fault
  | .invalidOption fault => optionMessage fault
  | .misuse fault => misuseMessage fault
  | .unusableCache path => "Cache file " ++ path ++ " is unusable"
  | .staleFixes path expected applied =>
    path ++ " changed since it was parsed: " ++ Text.ofNat applied ++ " of " ++
      Text.ofNat expected ++ " fixes matched"
  | .badGlob => "Invalid glob pattern"

end Failure

end BlockSync
