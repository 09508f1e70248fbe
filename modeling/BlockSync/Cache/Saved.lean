import BlockSync.Cache
import BlockSync.Json.Document
import BlockSync.Json.Printer
import BlockSync.Json.Reader

/-! The saved form of a cache and of all that it holds. Absent parts are left out when written and
may be missing or null when read, a diagnostic's id apart, which is written even if absent. -/

namespace BlockSync

open Document (record? required optional listOf?)
open Json (asText? asNatural?)

def Json.texts (items : List Text) : Json :=
  .array (items.map .text)

def Problem.toJson (p : Problem) : Json :=
  .text p.name

def Problem.ofJson? (v : Json) : Option Problem :=
  v.asVariant?.bind ofName?

namespace Location

def toJson (l : Location) : Json :=
  .record
    [("line", some (.natural l.line)), ("startColumn", l.startColumn.map .natural),
     ("endColumn", l.endColumn.map .natural)]

def ofJson? (v : Json) : Option Location :=
  match record? false [⟨"line", false⟩, ⟨"startColumn", true⟩, ⟨"endColumn", true⟩] v with
  | some [line, first, last] => do
    some ⟨← required asNatural? line, ← optional asNatural? first, ← optional asNatural? last⟩
  | _ => none

end Location

namespace Fix

def toJson : Fix → Json
  | .delete line description declaration =>
    .record
      [("type", some (.text "delete")), ("line", some (.natural line)),
       ("description", some (.text description)), ("declaration", some (.text declaration))]
  | .replace line text description declaration =>
    .record
      [("type", some (.text "replace")), ("line", some (.natural line)),
       ("text", some (.text text)), ("description", some (.text description)),
       ("declaration", some (.text declaration))]

def deleteOfJson? (v : Json) : Option Fix :=
  match record? false [⟨"line", false⟩, ⟨"description", false⟩, ⟨"declaration", false⟩] v with
  | some [line, description, declaration] => do
    some
      (.delete (← required asNatural? line) (← required asText? description)
        (← required asText? declaration))
  | _ => none

def replaceOfJson? (v : Json) : Option Fix :=
  match record? false
      [⟨"line", false⟩, ⟨"text", false⟩, ⟨"description", false⟩, ⟨"declaration", false⟩] v with
  | some [line, text, description, declaration] => do
    some
      (.replace (← required asNatural? line) (← required asText? text)
        (← required asText? description) (← required asText? declaration))
  | _ => none

def ofJson? (room : Nat) (v : Json) : Option Fix :=
  match v.tagged? room with
  | none => none
  | some (tag, rest) =>
    if tag = "delete" then deleteOfJson? rest
    else if tag = "replace" then replaceOfJson? rest
    else none

end Fix

namespace Diagnostic

def toJson (d : Diagnostic) : Json :=
  .record
    [("markerID", some (d.id.elim .null .text)), ("reason", some (.text d.reason)),
     ("code", some d.problem.toJson), ("location", d.location.map Location.toJson),
     ("fix", d.fix.map Fix.toJson)]

def ofJson? (room : Nat) (v : Json) : Option Diagnostic :=
  match record? false
      [⟨"markerID", false⟩, ⟨"reason", false⟩, ⟨"code", false⟩, ⟨"location", true⟩,
       ⟨"fix", true⟩] v with
  | some [id, reason, problem, location, fix] => do
    some
      ⟨← optional asText? id, ← required asText? reason, ← required Problem.ofJson? problem,
        ← optional Location.ofJson? location, ← optional (Fix.ofJson? (room - 1)) fix⟩
  | _ => none

end Diagnostic

namespace TargetKind

def toJson : TargetKind → Json
  | .file path => .record [("type", some (.text "local")), ("path", some (.text path))]
  | .remote url => .record [("type", some (.text "remote")), ("url", some (.text url))]

def soleText? (name : Text) (v : Json) : Option Text :=
  match record? false [⟨name, false⟩] v with
  | some [text] => required asText? text
  | _ => none

def ofJson? (room : Nat) (v : Json) : Option TargetKind :=
  match v.tagged? room with
  | none => none
  | some (tag, rest) =>
    if tag = "local" then (soleText? "path" rest).map .file
    else if tag = "remote" then (soleText? "url" rest).map .remote
    else none

end TargetKind

namespace Target

def toJson (t : Target) : Json :=
  .record
    [("reference", some (.text t.reference)), ("kind", some t.kind.toJson),
     ("checksum", t.checksum.map .text), ("declaration", some (.text t.declaration))]

def ofJson? (room : Nat) (v : Json) : Option Target :=
  match record? false
      [⟨"reference", false⟩, ⟨"kind", false⟩, ⟨"checksum", true⟩, ⟨"declaration", false⟩] v with
  | some [reference, kind, checksum, declaration] => do
    some
      ⟨← required asText? reference, ← required (TargetKind.ofJson? (room - 1)) kind,
        ← optional asText? checksum, ← required asText? declaration⟩
  | _ => none

end Target

namespace CommentStyle

def toJson (s : CommentStyle) : Json :=
  .record [("start", some (.text s.opening)), ("end", s.closing.map .text)]

def ofJson? (v : Json) : Option CommentStyle :=
  match record? false [⟨"start", false⟩, ⟨"end", true⟩] v with
  | some [opening, closing] => do
    some ⟨← required asText? opening, ← optional asText? closing⟩
  | _ => none

end CommentStyle

namespace Marker

def targetsToJson (targets : SortedMap Nat Target) : Json :=
  .object (targets.entries.map fun e => (Text.ofNat e.1, e.2.toJson))

def targetsOfJson? (room : Nat) (v : Json) : Option (SortedMap Nat Target) :=
  match v.numbered? with
  | none => none
  | some fields =>
    (fields.mapM fun f => (Target.ofJson? (room - 1) f.2).map (f.1, ·)).map SortedMap.ofList

def toJson (m : Marker) : Json :=
  .record
    [("contentChecksum", some (.text m.contentChecksum)),
     ("selfChecksum", some (.text m.selfChecksum)),
     ("commentStart", some (.text m.commentStart)), ("commentEnd", m.commentEnd.map .text),
     ("targets", some (targetsToJson m.targets))]

def ofJson? (room : Nat) (v : Json) : Option Marker :=
  match record? false
      [⟨"contentChecksum", false⟩, ⟨"selfChecksum", false⟩, ⟨"commentStart", false⟩,
       ⟨"commentEnd", true⟩, ⟨"targets", false⟩] v with
  | some [content, self, opening, closing, targets] => do
    some
      ⟨← required asText? content, ← required asText? self, ← required asText? opening,
        ← optional asText? closing, ← required (targetsOfJson? (room - 1)) targets⟩
  | _ => none

end Marker

/-- An object whose names are texts. -/
def SortedMap.toJson {α : Type} (write : α → Json) (m : SortedMap Text α) : Json :=
  .object (m.entries.map fun e => (Json.quote e.1, write e.2))

def SortedMap.ofJson? {α : Type} (read : Json → Option α) (v : Json) :
    Option (SortedMap Text α) :=
  match v.asFields? with
  | none => none
  | some fields => (fields.mapM fun f => (read f.2).map (f.1, ·)).map SortedMap.ofList

namespace FileInfo

def toJson (i : FileInfo) : Json :=
  .record
    [("readOnly", some (.bool i.readOnly)), ("aliases", some (.texts i.aliases)),
     ("root", some (.text i.root)), ("markers", some (i.markers.toJson Marker.toJson)),
     ("errors", some (.array (i.problems.map Diagnostic.toJson))),
     ("lineCount", i.lineCount.map .natural)]

def ofJson? (room : Nat) (v : Json) : Option FileInfo :=
  match record? false
      [⟨"readOnly", false⟩, ⟨"aliases", false⟩, ⟨"root", false⟩, ⟨"markers", false⟩,
       ⟨"errors", false⟩, ⟨"lineCount", true⟩] v with
  | some [readOnly, aliases, root, markers, problems, lineCount] => do
    some
      ⟨← required Document.bool? readOnly, ← required (listOf? asText?) aliases,
        ← required asText? root,
        ← required (SortedMap.ofJson? (Marker.ofJson? (room - 2))) markers,
        ← required (listOf? (Diagnostic.ofJson? (room - 2))) problems,
        ← optional asNatural? lineCount⟩
  | _ => none

end FileInfo

namespace Cache

def toJson (c : Cache) : Json :=
  SortedMap.toJson FileInfo.toJson c

def ofJson? (v : Json) : Option Cache :=
  SortedMap.ofJson? (FileInfo.ofJson? (Json.maxDepth - 1)) v

/-- The text that a cache is saved as. -/
def saved (c : Cache) : Text :=
  c.toJson.pretty

/-- The cache that was saved as a text. -/
def ofSaved? (t : Text) : Option Cache :=
  (Json.parse? t).bind ofJson?

end Cache

end BlockSync
