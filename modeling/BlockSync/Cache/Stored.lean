import BlockSync.Cache.Saved
import BlockSync.Failure

/-! Caches that are kept in files. -/

namespace BlockSync.Cache

def save (c : Cache) (d : Disk) (p : Path) : Except Failure Unit × Disk :=
  match d.replace p (Text.Utf8.encode c.saved) with
  | (.ok (), d) => (.ok (), d)
  | (.error refusal, d) => (.error (.refused refusal), d)

def load (d : Disk) (p : Path) : Except Failure Cache :=
  match d.text p with
  | .error cause => .error (.refused ⟨p.text, cause⟩)
  | .ok text =>
    match ofSaved? text with
    | some c => .ok c
    | none => .error (.unusableCache p.text)

end BlockSync.Cache
