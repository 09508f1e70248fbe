import BlockSync.Cache.Scan

/-! Building the cache: first the requested files, which may be written, then the files that they
point at, which may not. A file is scanned once, under its path without links. -/

namespace BlockSync.Cache

/-- The entry of a path that leads nowhere. -/
def unresolvable (path : Path) (readOnly : Bool) (cause : Disk.Cause) : FileInfo :=
  let root := path.parent?.getD path
  let info := FileInfo.new path.text root.text readOnly
  { info with
    problems :=
      [.couldNotParse ("Could not resolve '" ++ path.text ++ "': " ++ cause.message)] }

/-- Takes one more path in, and notes the files that it points at. -/
def visit (d : Disk) (o : Options) (readOnly : Bool) (s : Cache × List Path) (given : Path) :
    Cache × List Path :=
  match d.canonical given with
  | .error cause =>
    if s.1.contains given.text then s
    else (s.1.insert given.text (unresolvable given readOnly cause), s.2)
  | .ok canonical =>
    let s :=
      if s.1.contains canonical.text then s
      else
        let scanned := Scan.scan d o canonical readOnly
        (s.1.insert canonical.text scanned.info, s.2 ++ scanned.referenced)
    if canonical = given then s else (s.1.addAlias canonical.text given.text, s.2)

def build (d : Disk) (o : Options) (files : List Path) : Cache :=
  let (cache, referenced) := files.foldl (visit d o false) (∅, [])
  (referenced.foldl (visit d o true) (cache, [])).1

end BlockSync.Cache
