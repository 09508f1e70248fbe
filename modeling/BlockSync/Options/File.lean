import BlockSync.Failure
import BlockSync.Options.Record
import BlockSync.Json.Reader
import BlockSync.Toml.Reader
import BlockSync.Yaml.Document

/-! Settings in files. The extension of a file tells its notation, before the file is read. -/

namespace BlockSync

def Notation.ofPath (p : Path) : Except Failure Notation :=
  let written := p.extension?.getD []
  let extension := Text.lower written
  if extension = "toml" then .ok .toml
  else if extension = "json" then .ok .json
  else if extension = "yaml" ∨ extension = "yml" then .ok .yaml
  else .error (.unsupportedFormat written)

namespace Config

def parse? (style : Notation) (t : Text) : Option Config :=
  match style with
  | .toml => (Toml.parse? t).bind read?
  | .json => (Json.parse? t).bind read?
  | .yaml => (Yaml.parse? t).bind read?

def load (d : Disk) (p : Path) : Except Failure Config :=
  match Notation.ofPath p with
  | .error failure => .error failure
  | .ok style =>
    match d.text p with
    | .error cause => .error (.refused ⟨p.text, cause⟩)
    | .ok text =>
      match parse? style text with
      | some config => .ok config
      | none => .error (.badConfig style p.text)

/-- The names that a configuration file goes by, the first one found being taken. -/
def fileNames : List Text :=
  ["tagsync.toml", ".tagsync.toml", "tagsync.json", "tagsync.yaml"]

/-- The configuration file in the nearest directory that has one, from `start` upwards. -/
def discover (d : Disk) (start : Path) : Option Path :=
  (start :: start.ancestors).findSome? fun dir =>
    (fileNames.map dir.join).find? d.isFile

end Config

end BlockSync
