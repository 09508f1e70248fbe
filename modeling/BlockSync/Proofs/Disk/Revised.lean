import BlockSync.Cache.Scan
import BlockSync.Proofs.Disk.Canonical

/-! A disk on which files get new content. No path leads anywhere else, so all that reading a file
asks of the disk, but for the content and the modes of the files, stays as it is. -/

namespace BlockSync.Disk

open Text.Utf8 (Bytes)

/-- What stands at a place whose file gets this content, if any. -/
def Entry.withContent (modes : Modes) (content : Option Bytes) : Entry → Entry
  | .file bytes mode => content.elim (.file bytes mode) fun new => .file new (modes.kept new mode)
  | .link target => .link target
  | .directory => .directory

def Spot.withContent (modes : Modes) (content : Place → Option Bytes) : Spot → Spot
  | .taken place entry => .taken place (entry.withContent modes (content place))
  | .free place => .free place

/-- The disk with new content in the files at some places. -/
def revised (d : Disk) (content : Place → Option Bytes) : Disk :=
  { d with entries := d.entries.map fun place entry => entry.withContent d.modes (content place) }

@[simp]
theorem Entry.withContent_none (modes : Modes) (e : Entry) : e.withContent modes none = e := by
  cases e <;> rfl

/-- One of two contents is new, for getting both would wear the mode twice. -/
theorem Entry.withContent_withContent (modes : Modes) (e : Entry) {content other : Option Bytes}
    (h : content = none ∨ other = none) :
    (e.withContent modes content).withContent modes other = e.withContent modes (other.or content) := by
  rcases h with rfl | rfl <;> simp

@[simp]
theorem Entry.withContent_eq_directory {modes : Modes} {e : Entry} {content : Option Bytes} :
    e.withContent modes content = .directory ↔ e = .directory := by
  cases e with
  | file => cases content <;> simp [Entry.withContent]
  | link | directory => simp [Entry.withContent]

@[simp]
theorem Entry.withContent_eq_link {modes : Modes} {e : Entry} {content : Option Bytes}
    {target : Text} : e.withContent modes content = .link target ↔ e = .link target := by
  cases e with
  | file => cases content <;> simp [Entry.withContent]
  | link | directory => simp [Entry.withContent]

variable {d : Disk} {content : Place → Option Bytes}

theorem find?_revised (d : Disk) (content : Place → Option Bytes) (place : Place) :
    (d.revised content).entries.find? place =
      (d.entries.find? place).map (·.withContent d.modes (content place)) :=
  SortedMap.find?_map ..

theorem entry?_revised (d : Disk) (content : Place → Option Bytes) (place : Place) :
    entry? (d.revised content) place = (d.entry? place).map (·.withContent d.modes (content place)) := by
  unfold entry?
  split
  next => rfl
  next => exact find?_revised d content place

theorem revised_congr {other : Place → Option Bytes}
    (h : ∀ place e, d.entry? place = some e → content place = other place) :
    d.revised content = d.revised other := by
  refine ext_entries (fun place => ?_) rfl rfl rfl
  rw [find?_revised, find?_revised]
  by_cases hp : place = []
  · rw [h place .directory (by simp [hp])]
  · cases he : d.entries.find? place with
    | none => rfl
    | some e => rw [h place e (by rw [entry?_of_ne hp, he])]

theorem revised_none (d : Disk) : (d.revised fun _ => none) = d := by
  refine ext_entries (fun place => ?_) rfl rfl rfl
  simp [find?_revised]

theorem revised_revised (d : Disk) {content other : Place → Option Bytes}
    (h : ∀ place, content place = none ∨ other place = none) :
    (d.revised content).revised other = d.revised fun place => (other place).or (content place) := by
  refine ext_entries (fun place => ?_) rfl rfl rfl
  simp only [find?_revised, Option.map_map]
  congr 1
  funext e
  exact e.withContent_withContent d.modes (h place)

theorem entry?_revised_eq_directory {place : Place} :
    entry? (d.revised content) place = some .directory ↔ d.entry? place = some .directory := by
  simp [entry?_revised]

theorem walkNames_revised {last : Bool} {follow follow' : Place → List Text → Except Cause Spot}
    (hf : ∀ here names, follow' here names = (follow here names).map (·.withContent d.modes content))
    (here : Place) (names : List Text) :
    (d.revised content).walkNames last follow' here names =
      (d.walkNames last follow here names).map (·.withContent d.modes content) := by
  induction names generalizing here with
  | nil =>
    rw [walkNames, walkNames, entry?_revised]
    cases d.entry? here <;> rfl
  | cons name rest ih =>
    rw [walkNames, walkNames]
    by_cases hh : d.entry? here = some .directory
    · have hh' : entry? (d.revised content) here = some .directory :=
        entry?_revised_eq_directory.mpr hh
      simp only [hh, hh', ne_eq, not_true_eq_false, if_false]
      split
      next => exact ih here
      next =>
        split
        next => exact ih here.dropLast
        next =>
          rw [entry?_revised]
          cases d.entry? (here ++ [name]) with
          | none =>
            dsimp only [Option.map]
            split
            next => rfl
            next => split <;> rfl
          | some e =>
            cases e with
            | file bytes mode =>
              cases content (here ++ [name]) with
              | none => exact ih (here ++ [name])
              | some new => exact ih (here ++ [name])
            | link target =>
              dsimp only [Option.map, Entry.withContent]
              split
              next => rfl
              next => exact hf _ _
            | directory => exact ih (here ++ [name])
    · have hh' : ¬ entry? (d.revised content) here = some .directory :=
        fun h => hh (entry?_revised_eq_directory.mp h)
      simp only [hh, hh', ne_eq, not_false_eq_true, if_true]
      rfl

theorem walk_revised (last : Bool) (links : Nat) (here : Place) (names : List Text) :
    (d.revised content).walk last links here names =
      (d.walk last links here names).map (·.withContent d.modes content) := by
  induction links generalizing here names with
  | zero =>
    rw [walk, walk]
    refine walkNames_revised ?_ here names
    intro _ _
    rfl
  | succ links ih =>
    rw [walk, walk]
    exact walkNames_revised ih here names

theorem spot_revised (d : Disk) (content : Place → Option Bytes) (last : Bool) (path : Text) :
    (d.revised content).spot last path = (d.spot last path).map (·.withContent d.modes content) := by
  unfold spot
  split
  next => rfl
  next =>
    split
    next => rfl
    next => exact walk_revised ..

theorem find_revised (d : Disk) (content : Place → Option Bytes) (path : Text) :
    (d.revised content).find path =
      (d.find path).map fun found => (found.1, found.2.withContent d.modes (content found.1)) := by
  rw [find, find, spot_revised]
  rcases d.spot true path with cause | ⟨place, bytes | target | _⟩ | place
  case ok.taken.file => cases hc : content place <;> simp [Except.map, Spot.withContent, Entry.withContent, hc]
  all_goals rfl

theorem present_revised (d : Disk) (content : Place → Option Bytes) (p : Path) :
    (d.revised content).present p = d.present p := by
  rw [present, present, find_revised]
  cases d.find p.text <;> rfl

theorem isFile_revised (d : Disk) (content : Place → Option Bytes) (p : Path) :
    (d.revised content).isFile p = d.isFile p := by
  rw [isFile, isFile, find_revised]
  rcases d.find p.text with cause | ⟨place, bytes | target | _⟩
  case ok.file => cases hc : content place <;> simp [Except.map, Entry.withContent, hc]
  all_goals rfl

theorem canonical_revised (d : Disk) (content : Place → Option Bytes) (p : Path) :
    (d.revised content).canonical p = d.canonical p := by
  rw [canonical, canonical, find_revised]
  cases d.find p.text <;> rfl

theorem lines_revised {p : Path} {place : Place} {bytes : Bytes} {mode : Mode}
    (h : d.find p.text = .ok (place, .file bytes mode)) :
    (d.revised content).lines p =
      let reading := Line.read ((content place).getD bytes)
      .ok (reading.lines, reading.fault.map .illFormed) := by
  rw [lines, find_revised, h]
  cases hc : content place <;> simp [Except.map, Entry.withContent, hc]

theorem lines_revised_of_none {p : Path}
    (h : ∀ place e, d.find p.text = .ok (place, e) → content place = none) :
    (d.revised content).lines p = d.lines p := by
  rw [lines, lines, find_revised]
  cases hf : d.find p.text with
  | error cause => rfl
  | ok found =>
    obtain ⟨place, e⟩ := found
    simp only [Except.map, h place e hf, Entry.withContent_none]

theorem WellFormed.revised (hd : d.WellFormed) (content : Place → Option Bytes) :
    (d.revised content).WellFormed := by
  have hmem : ∀ e ∈ (d.revised content).entries.entries, ∃ entry, (e.1, entry) ∈ d.entries.entries := by
    intro e he
    obtain ⟨x, hx, rfl⟩ := List.mem_map.mp he
    exact ⟨x.2, hx⟩
  refine ⟨fun e he => ?_, fun e he => ?_, entry?_revised_eq_directory.mpr hd.here⟩
  · obtain ⟨entry, hm⟩ := hmem e he
    exact hd.plain (e.1, entry) hm
  · obtain ⟨entry, hm⟩ := hmem e he
    exact entry?_revised_eq_directory.mpr (hd.rooted (e.1, entry) hm)

/-- Putting a file in the place of one, with the mode that is left, gives that one new content. -/
theorem set_eq_revised {place : Place} {bytes old : Bytes} {mode : Mode}
    (h : d.entry? place = some (.file old mode)) :
    d.set place (.file bytes (d.modes.kept bytes mode)) =
      d.revised fun other => if other = place then some bytes else none := by
  have hne : place ≠ [] := by
    rintro rfl
    simp at h
  rw [entry?_of_ne hne] at h
  refine ext_entries (fun other => ?_) rfl rfl rfl
  rw [find?_revised, set, SortedMap.find?_insert]
  by_cases ho : other = place
  · simp [ho, h, Entry.withContent]
  · simp [ho]

end BlockSync.Disk

namespace BlockSync.Scan

open Text.Utf8 (Bytes)

variable (d : Disk) (content : Place → Option Bytes)

theorem findRoot_revised (file : Path) (marker : Text) :
    findRoot (d.revised content) file marker = findRoot d file marker := by
  simp only [findRoot, Disk.present_revised]

theorem resolveTarget_revised (root : Path) :
    resolveTarget (d.revised content) root = resolveTarget d root := by
  funext reference
  simp only [resolveTarget, Disk.isFile_revised]

theorem targetsSelf_revised (path : Path) (target : Text) :
    targetsSelf (d.revised content) path target = targetsSelf d path target := by
  simp only [targetsSelf, Disk.canonical_revised]

theorem noteTarget_revised : noteTarget (d.revised content) = noteTarget d := by
  funext path id s line target
  simp only [noteTarget, targetsSelf_revised, Disk.isFile_revised]

theorem noteEvent_revised : noteEvent (d.revised content) = noteEvent d := by
  funext at_ s event
  cases event with
  | problem x => rfl
  | completed b => simp only [noteEvent, noteBlock, noteTarget_revised]

theorem scan_revised {o : Options} {path : Path}
    (h : (d.revised content).lines path = d.lines path) :
    scan (d.revised content) o path = scan d o path := by
  funext readOnly
  rw [scan, scan, findRoot_revised, h]
  simp only [resolveTarget_revised, noteEvent_revised]

end BlockSync.Scan
