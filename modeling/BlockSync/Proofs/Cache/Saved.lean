import BlockSync.Cache.Saved
import BlockSync.Proofs.Json.Document
import BlockSync.Proofs.SortedMap

/-! What was saved of a cache is what is read. Each part reads back from its own form, whatever its
texts are, as long as every number is one that a reader takes. -/

namespace BlockSync

open Document (required)
open Json (Flat InWord Printable asNatural? asText? record)

theorem Problem.ofJson?_toJson (p : Problem) : ofJson? p.toJson = some p := by
  have hall : ∀ p ∈ all, ofName? p.name = some p := by decide +kernel
  have hname : ofName? p.name = some p := hall p (by cases p <;> decide)
  rw [ofJson?, toJson, Json.text, Json.asVariant?, Json.unquote?_quote]
  exact hname

namespace Location

/-- All numbers are such as a reader takes. -/
structure Bounded (l : Location) : Prop where
  line : InWord l.line
  startColumn : ∀ n ∈ l.startColumn, InWord n
  endColumn : ∀ n ∈ l.endColumn, InWord n

variable {l : Location}

theorem Bounded.printable (h : l.Bounded) : Printable l.toJson := by
  refine Json.printable_record ?_
  simp only [List.forall_mem_cons, List.not_mem_nil, false_imp_iff, implies_true, and_true]
  exact ⟨Json.forall_mem_some (.natural h.line),
    Json.printable_map fun n hn => .natural (h.startColumn n hn),
    Json.printable_map fun n hn => .natural (h.endColumn n hn)⟩

theorem Bounded.ofJson?_toJson (h : l.Bounded) : ofJson? l.toJson = some l := by
  have hline : asNatural? (.natural l.line) = some l.line := Json.asNatural?_natural h.line
  have hstart : Document.optional asNatural? (l.startColumn.map .natural) = some l.startColumn :=
    Json.optional_map Json.null?_natural fun n hn => Json.asNatural?_natural (h.startColumn n hn)
  have hend : Document.optional asNatural? (l.endColumn.map .natural) = some l.endColumn :=
    Json.optional_map Json.null?_natural fun n hn => Json.asNatural?_natural (h.endColumn n hn)
  rw [ofJson?, toJson, Json.record?_record (by simp)]
  simp [List.lookup_cons, required, hline, hstart, hend]

end Location

namespace Fix

def Bounded (f : Fix) : Prop :=
  InWord f.line

def tag : Fix → Text
  | .delete .. => "delete"
  | .replace .. => "replace"

def parts : Fix → List (Text × Option Json)
  | .delete line description declaration =>
    [("line", some (.natural line)), ("description", some (.text description)),
     ("declaration", some (.text declaration))]
  | .replace line text description declaration =>
    [("line", some (.natural line)), ("text", some (.text text)),
     ("description", some (.text description)), ("declaration", some (.text declaration))]

variable {f : Fix}

theorem toJson_eq (f : Fix) : f.toJson = record (("type", some (.text f.tag)) :: f.parts) := by
  cases f <;> rfl

theorem Bounded.flat (h : f.Bounded) : ∀ p ∈ f.parts, ∀ v ∈ p.2, Flat v := by
  cases f with
  | delete | replace =>
    have hline := Json.flat_natural h
    simp only [parts, List.forall_mem_cons, List.not_mem_nil, false_imp_iff, implies_true, and_true]
    and_intros
    all_goals exact Json.forall_mem_some (by first | exact hline | exact Json.flat_text _)

theorem Bounded.printable (h : f.Bounded) : Printable f.toJson := by
  rw [toJson_eq]
  refine Json.printable_record (List.forall_mem_cons.mpr ⟨?_, fun p hp v hv => ?_⟩)
  · exact Json.forall_mem_some (.text _)
  · exact (h.flat p hp v hv).printable

theorem Bounded.ofJson?_parts (h : f.Bounded) :
    (if f.tag = "delete" then deleteOfJson? (record f.parts)
      else if f.tag = "replace" then replaceOfJson? (record f.parts) else none) = some f := by
  cases f with
  | delete line description declaration =>
    have hline : asNatural? (.natural line) = some line := Json.asNatural?_natural h
    show (if ("delete" : Text) = "delete" then _ else _) = _
    rw [if_pos rfl, deleteOfJson?, parts, Json.record?_record (by simp)]
    simp [List.lookup_cons, required, hline, Json.asText?_text]
  | replace line text description declaration =>
    have hline : asNatural? (.natural line) = some line := Json.asNatural?_natural h
    have hne : ("replace" : Text) ≠ "delete" := by decide
    show (if ("replace" : Text) = "delete" then _
      else if ("replace" : Text) = "replace" then _ else _) = _
    simp only [hne, if_false, if_true]
    rw [replaceOfJson?, parts, Json.record?_record (by simp)]
    simp [List.lookup_cons, required, hline, Json.asText?_text]

theorem Bounded.ofJson?_toJson (h : f.Bounded) (room : Nat) :
    ofJson? (room + 1) f.toJson = some f := by
  have htagged : f.toJson.tagged? (room + 1) = some (f.tag, record f.parts) := by
    rw [toJson_eq]
    refine Json.tagged?_record h.flat ?_ f.tag room
    cases f <;> simp [parts]
  rw [ofJson?, htagged]
  exact h.ofJson?_parts

end Fix

namespace Diagnostic

structure Bounded (d : Diagnostic) : Prop where
  location : ∀ l ∈ d.location, l.Bounded
  fix : ∀ f ∈ d.fix, f.Bounded

variable {d : Diagnostic}

theorem Bounded.printable (h : d.Bounded) : Printable d.toJson := by
  have hid : Printable (d.id.elim .null .text) := by
    cases d.id with
    | none => exact .null
    | some id => exact .text id
  refine Json.printable_record ?_
  simp only [List.forall_mem_cons, List.not_mem_nil, false_imp_iff, implies_true, and_true]
  exact ⟨Json.forall_mem_some hid, Json.forall_mem_some (.text _),
    Json.forall_mem_some (.text _),
    Json.printable_map fun l hl => (h.location l hl).printable,
    Json.printable_map fun f hf => (h.fix f hf).printable⟩

theorem Bounded.ofJson?_toJson (h : d.Bounded) (room : Nat) :
    ofJson? (room + 2) d.toJson = some d := by
  have hid : Document.optional asText? (some (d.id.elim .null .text)) = some d.id := by
    cases d.id with
    | none => rfl
    | some id => exact Json.optional_map (x := some id) Json.null?_text fun t _ => Json.asText?_text t
  have hproblem : Problem.ofJson? d.problem.toJson = some d.problem := d.problem.ofJson?_toJson
  have hlocation : Document.optional Location.ofJson? (d.location.map Location.toJson) =
      some d.location :=
    Json.optional_map (fun _ => rfl) fun l hl => (h.location l hl).ofJson?_toJson
  have hfix : Document.optional (Fix.ofJson? (room + 1)) (d.fix.map Fix.toJson) = some d.fix :=
    Json.optional_map (fun f => by cases f <;> rfl) fun f hf => (h.fix f hf).ofJson?_toJson room
  rw [ofJson?, toJson, Json.record?_record (by simp)]
  simp [List.lookup_cons, required, hid, hproblem, hlocation, hfix, Json.asText?_text]

end Diagnostic

namespace TargetKind

def tag : TargetKind → Text
  | .file _ => "local"
  | .remote _ => "remote"

def parts : TargetKind → List (Text × Option Json)
  | .file path => [("path", some (.text path))]
  | .remote url => [("url", some (.text url))]

theorem toJson_eq (k : TargetKind) : k.toJson = record (("type", some (.text k.tag)) :: k.parts) := by
  cases k <;> rfl

theorem flat_parts (k : TargetKind) : ∀ p ∈ k.parts, ∀ v ∈ p.2, Flat v := by
  cases k with
  | file | remote =>
    simp only [parts, List.forall_mem_singleton]
    exact Json.forall_mem_some (Json.flat_text _)

theorem printable (k : TargetKind) : Printable k.toJson := by
  rw [toJson_eq]
  refine Json.printable_record (List.forall_mem_cons.mpr ⟨?_, fun p hp v hv => ?_⟩)
  · exact Json.forall_mem_some (.text _)
  · exact (k.flat_parts p hp v hv).printable

theorem soleText?_record (name t : Text) :
    soleText? name (record [(name, some (.text t))]) = some t := by
  rw [soleText?, Json.record?_record (by simp)]
  simp [required, Json.asText?_text]

theorem ofJson?_parts (k : TargetKind) :
    (if k.tag = "local" then (soleText? "path" (record k.parts)).map .file
      else if k.tag = "remote" then (soleText? "url" (record k.parts)).map .remote
      else none) = some k := by
  cases k with
  | file path =>
    show (if ("local" : Text) = "local" then _ else _) = _
    rw [if_pos rfl, parts, soleText?_record]
    rfl
  | remote url =>
    have hne : ("remote" : Text) ≠ "local" := by decide
    show (if ("remote" : Text) = "local" then _
      else if ("remote" : Text) = "remote" then _ else _) = _
    simp only [hne, if_false, if_true, parts, soleText?_record, Option.map_some]

theorem ofJson?_toJson (k : TargetKind) (room : Nat) : ofJson? (room + 1) k.toJson = some k := by
  have htagged : k.toJson.tagged? (room + 1) = some (k.tag, record k.parts) := by
    rw [toJson_eq]
    refine Json.tagged?_record k.flat_parts ?_ k.tag room
    cases k <;> simp [parts]
  rw [ofJson?, htagged]
  exact k.ofJson?_parts

end TargetKind

namespace Target

theorem printable (t : Target) : Printable t.toJson := by
  refine Json.printable_record ?_
  simp only [List.forall_mem_cons, List.not_mem_nil, false_imp_iff, implies_true, and_true]
  exact ⟨Json.forall_mem_some (.text _), Json.forall_mem_some t.kind.printable,
    Json.printable_map fun c _ => .text c, Json.forall_mem_some (.text _)⟩

theorem ofJson?_toJson (t : Target) (room : Nat) : ofJson? (room + 2) t.toJson = some t := by
  have hkind : TargetKind.ofJson? (room + 1) t.kind.toJson = some t.kind := t.kind.ofJson?_toJson room
  have hchecksum : Document.optional asText? (t.checksum.map .text) = some t.checksum :=
    Json.optional_map Json.null?_text fun c _ => Json.asText?_text c
  rw [ofJson?, toJson, Json.record?_record (by simp)]
  simp [List.lookup_cons, required, hkind, hchecksum, Json.asText?_text]

end Target

namespace Marker

def Bounded (m : Marker) : Prop :=
  ∀ e ∈ m.targets.entries, InWord e.1

variable {m : Marker}

theorem printable (m : Marker) : Printable m.toJson := by
  have htargets : Printable (targetsToJson m.targets) := by
    refine .object (fun f hf => ?_) fun f hf => ?_
    · obtain ⟨e, -, rfl⟩ := List.mem_map.mp hf
      exact ⟨Text.ofNat e.1, (Json.quote_ofNat e.1).symm⟩
    · obtain ⟨e, -, rfl⟩ := List.mem_map.mp hf
      exact e.2.printable
  refine Json.printable_record ?_
  simp only [List.forall_mem_cons, List.not_mem_nil, false_imp_iff, implies_true, and_true]
  exact ⟨Json.forall_mem_some (.text _), Json.forall_mem_some (.text _),
    Json.forall_mem_some (.text _), Json.printable_map fun c _ => .text c,
    Json.forall_mem_some htargets⟩

theorem Bounded.targetsOfJson?_toJson (h : m.Bounded) (room : Nat) :
    targetsOfJson? (room + 3) (targetsToJson m.targets) = some m.targets := by
  have hsplit : targetsToJson m.targets = .object
      ((m.targets.entries.map fun e => (e.1, e.2.toJson)).map fun f => (Text.ofNat f.1, f.2)) := by
    rw [targetsToJson, List.map_map]
    rfl
  have hnumbered : (targetsToJson m.targets).numbered? =
      some (m.targets.entries.map fun e => (e.1, e.2.toJson)) := by
    rw [hsplit, Json.numbered?_object]
    intro f hf
    obtain ⟨e, he, rfl⟩ := List.mem_map.mp hf
    exact h e he
  have hread : ∀ e ∈ m.targets.entries,
      (Target.ofJson? (room + 2) e.2.toJson).map (e.1, ·) = some (id e) := by
    intro e _
    rw [Target.ofJson?_toJson]
    rfl
  rw [targetsOfJson?, hnumbered]
  dsimp only
  rw [Json.mapM_map_eq hread, List.map_id, Option.map_some, SortedMap.ofList_entries]

theorem Bounded.ofJson?_toJson (h : m.Bounded) (room : Nat) :
    ofJson? (room + 4) m.toJson = some m := by
  have htargets := h.targetsOfJson?_toJson room
  have hclosing : Document.optional asText? (m.commentEnd.map .text) = some m.commentEnd :=
    Json.optional_map Json.null?_text fun c _ => Json.asText?_text c
  rw [ofJson?, toJson, Json.record?_record (by simp)]
  simp [List.lookup_cons, required, htargets, hclosing, Json.asText?_text]

end Marker

section SortedMap

variable {α : Type} {write : α → Json} {m : SortedMap Text α}

theorem SortedMap.printable (h : ∀ e ∈ m.entries, Printable (write e.2)) :
    Printable (m.toJson write) := by
  refine .object (fun f hf => ?_) fun f hf => ?_
  · obtain ⟨e, -, rfl⟩ := List.mem_map.mp hf
    exact ⟨e.1, rfl⟩
  · obtain ⟨e, he, rfl⟩ := List.mem_map.mp hf
    exact h e he

theorem SortedMap.ofJson?_toJson {read : Json → Option α}
    (h : ∀ e ∈ m.entries, read (write e.2) = some e.2) :
    SortedMap.ofJson? read (m.toJson write) = some m := by
  have hkeys : (m.toJson write).asFields? = some (m.entries.map fun e => (e.1, write e.2)) := by
    rw [SortedMap.toJson, Json.asFields?, Json.mapM_map_eq]
    intro e _
    rw [Json.unquote?_quote]
    rfl
  have hread : ∀ e ∈ m.entries, (read (write e.2)).map (e.1, ·) = some (id e) := by
    intro e he
    rw [h e he]
    rfl
  rw [SortedMap.ofJson?, hkeys]
  dsimp only
  rw [Json.mapM_map_eq hread, List.map_id, Option.map_some, SortedMap.ofList_entries]

end SortedMap

theorem listOf?_map {α : Type} {write : α → Json} {read : Json → Option α} {l : List α}
    (h : ∀ a ∈ l, read (write a) = some a) :
    Document.listOf? read (Json.array (l.map write)) = some l := by
  have hread : (l.map write).mapM read = some (l.map id) := Json.mapM_map_eq h
  rw [List.map_id] at hread
  exact hread

namespace FileInfo

structure Bounded (i : FileInfo) : Prop where
  markers : ∀ e ∈ i.markers.entries, e.2.Bounded
  problems : ∀ d ∈ i.problems, d.Bounded
  lineCount : ∀ n ∈ i.lineCount, InWord n

variable {i : FileInfo}

theorem Bounded.printable (h : i.Bounded) : Printable i.toJson := by
  refine Json.printable_record ?_
  simp only [List.forall_mem_cons, List.not_mem_nil, false_imp_iff, implies_true, and_true]
  exact ⟨Json.forall_mem_some (.bool _),
    Json.forall_mem_some (Json.printable_items fun t _ => .text t),
    Json.forall_mem_some (.text _),
    Json.forall_mem_some (SortedMap.printable fun e _ => e.2.printable),
    Json.forall_mem_some (Json.printable_items fun d hd => (h.problems d hd).printable),
    Json.printable_map fun n hn => .natural (h.lineCount n hn)⟩

theorem Bounded.ofJson?_toJson (h : i.Bounded) (room : Nat) :
    ofJson? (room + 6) i.toJson = some i := by
  have hmode : Document.bool? (Json.bool i.readOnly) = some i.readOnly := rfl
  have haliases : Document.listOf? asText? (Json.texts i.aliases) = some i.aliases :=
    listOf?_map fun t _ => Json.asText?_text t
  have hmarkers : SortedMap.ofJson? (Marker.ofJson? (room + 4)) (i.markers.toJson Marker.toJson) =
      some i.markers :=
    SortedMap.ofJson?_toJson fun e he => (h.markers e he).ofJson?_toJson room
  have hproblems : Document.listOf? (Diagnostic.ofJson? (room + 4))
      (Json.array (i.problems.map Diagnostic.toJson)) = some i.problems :=
    listOf?_map fun d hd => (h.problems d hd).ofJson?_toJson (room + 2)
  have hcount : Document.optional asNatural? (i.lineCount.map .natural) = some i.lineCount :=
    Json.optional_map Json.null?_natural fun n hn => Json.asNatural?_natural (h.lineCount n hn)
  rw [ofJson?, toJson, Json.record?_record (by simp)]
  simp [List.lookup_cons, required, hmode, haliases, hmarkers, hproblems, hcount, Json.asText?_text]

end FileInfo

namespace Cache

def Bounded (c : Cache) : Prop :=
  ∀ e ∈ c.entries, e.2.Bounded

variable {c : Cache}

/-- A cache is what its saved form is read as. -/
theorem Bounded.ofSaved?_saved (h : c.Bounded) : ofSaved? c.saved = some c := by
  have hprintable : Printable c.toJson := SortedMap.printable fun e he => (h e he).printable
  have hread : ofJson? c.toJson = some c :=
    SortedMap.ofJson?_toJson fun e he => (h e he).ofJson?_toJson 120
  rw [ofSaved?, saved, hprintable.parse?_pretty]
  exact hread

end Cache

end BlockSync
