import BlockSync.Cache.Saved
import BlockSync.Report

/-! Reports as they are printed: a line for each notice and a closing line, or one JSON document.
Files below the directory of the run are named from there. -/

namespace BlockSync

/-- The name of a file as it is shown to someone in the directory `cwd`. -/
def shownPath (cwd : Path) (file : Text) : Text :=
  ((Path.ofText file).relativeTo? cwd).getD file

def Level.label : Level → Text
  | .info => "would fix:"
  | .fixed => "fixed:"
  | .warning => "warning:"
  | .error => "error:"

def Notice.shown (cwd : Path) (n : Notice) : Text :=
  let place :=
    match n.line? with
    | some line => shownPath cwd n.file ++ ":" ++ Text.ofNat line ++ ":"
    | none => shownPath cwd n.file ++ ":"
  place ++ " " ++ n.level.label ++ " " ++ n.message

namespace Summary

def counted (n : Nat) (noun : Text) : Text :=
  let ending : Text := if n = 1 then [] else "s"
  Text.ofNat n ++ " " ++ noun ++ ending

def shown (s : Summary) : List Text :=
  let files := counted s.filesChecked "file"
  if s.filesChecked = 0 then []
  else
    match s.exitCode with
    | .success =>
      if 0 < s.filesFixed then
        ["OK Fixed " ++ counted s.filesFixed "file" ++ " (" ++
          counted s.fixesApplied "change" ++ "), " ++ files ++ " checked"]
      else ["OK " ++ files ++ " in sync"]
    | .desynchronized =>
      ["DESYNCHRONIZED " ++ counted s.fixableErrors "fixable error" ++ " in " ++ files,
        "Run tagsync fix to repair."]
    | _ =>
      ["FAILED " ++ counted s.unfixableErrors "unfixable error" ++ " and " ++
        counted s.fixableErrors "fixable error" ++ " in " ++ files]

def toJson (s : Summary) : Json :=
  .record
    [("filesChecked", some (.natural s.filesChecked)), ("filesFixed", some (.natural s.filesFixed)),
     ("fixesApplied", some (.natural s.fixesApplied)),
     ("fixableErrors", some (.natural s.fixableErrors)),
     ("unfixableErrors", some (.natural s.unfixableErrors))]

end Summary

def Notice.diagnostic? : Notice → Option Diagnostic
  | .problem _ diagnostic => some diagnostic
  | .repair .. => none

def Notice.toJson (cwd : Path) (n : Notice) : Json :=
  .record
    [("file", some (.text (shownPath cwd n.file))), ("level", some (.text n.level.name)),
     ("message", some (.text n.message)), ("line", n.line?.map .natural),
     ("error", n.diagnostic?.map Diagnostic.toJson)]

end BlockSync
