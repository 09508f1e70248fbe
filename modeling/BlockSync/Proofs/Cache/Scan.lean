import BlockSync.Cache.Scan
import BlockSync.Proofs.Block.Completed

/-! What a scan keeps of a file's blocks: the problems that each block adds, the marker that is
stored for each id, and the files that the declarations refer to. -/

namespace BlockSync.Scan

open Block (Event completed mem_completed)

/-- The declarations that point at their own file. -/
def selfTargets (d : Disk) (path : Path) (id : Text) (targets : List (Nat × Target)) :
    List Diagnostic :=
  targets.filterMap fun e =>
    match e.2.kind with
    | .file text => if targetsSelf d path text then some (.selfTargeting e.1 id) else none
    | .remote _ => none

/-- A declaration refers to a file other than its own that is there. -/
def Refers (d : Disk) (path : Path) (target : Target) (file : Path) : Prop :=
  ∃ text, target.kind = .file text ∧ targetsSelf d path text = false ∧
    d.isFile (.ofText text) = true ∧ file = .ofText text

/-- What is wrong with a completed block, given whether its id was declared before. -/
def blockProblems (d : Disk) (at_ : Setting) (again : Bool) (b : Block) : List Diagnostic :=
  if b.targets.isEmpty then []
  else
    selfTargets d at_.path b.id b.targets.entries ++
      ((if again then [.duplicateMarker b.firstLine b.id] else []) ++
        if b.content.isEmpty && !at_.allowEmpty then [.emptyMarker b.firstLine b.id] else [])

def storeBlock (at_ : Setting) (markers : SortedMap Text Marker) (b : Block) :
    SortedMap Text Marker :=
  if b.targets.isEmpty ∧ markers.contains b.id then markers
  else markers.insert b.id (markerOf at_.relative b)

theorem foldl_noteTarget_info (d : Disk) (path : Path) (id : Text) (s : Scanned)
    (targets : List (Nat × Target)) :
    (targets.foldl (fun s e => noteTarget d path id s e.1 e.2) s).info =
      { s.info with problems := s.info.problems ++ selfTargets d path id targets } := by
  induction targets generalizing s with
  | nil => simp [selfTargets]
  | cons e targets ih =>
    rw [List.foldl_cons, ih]
    simp only [noteTarget, selfTargets, List.filterMap_cons]
    cases e.2.kind with
    | remote url => rfl
    | file text =>
      by_cases h : targetsSelf d path text = true
      · simp [h]
      · simp only [h, if_false, Bool.false_eq_true]
        split <;> rfl

theorem mem_noteTarget_referenced {d : Disk} {path : Path} {id : Text} {s : Scanned} {line : Nat}
    {target : Target} {file : Path} :
    file ∈ (noteTarget d path id s line target).referenced ↔
      file ∈ s.referenced ∨ Refers d path target file := by
  unfold noteTarget Refers
  cases target.kind with
  | remote url => simp
  | file text =>
    simp only [TargetKind.file.injEq, exists_eq_left']
    by_cases h : targetsSelf d path text = true
    · simp [h]
    · simp only [h, if_false, Bool.false_eq_true, true_and]
      by_cases hf : d.isFile (.ofText text) = true
      · by_cases hc : Path.ofText text ∈ s.referenced
        · simp only [hf, hc, List.contains_eq_mem, decide_true, Bool.not_true, Bool.and_false,
            Bool.false_eq_true, if_false, true_and]
          exact ⟨.inl, fun hm => hm.elim (fun h => h) fun he => he ▸ hc⟩
        · simp [hf, hc]
      · simp [hf]

theorem mem_foldl_noteTarget_referenced {d : Disk} {path : Path} {id : Text} {s : Scanned}
    {targets : List (Nat × Target)} {file : Path} :
    file ∈ (targets.foldl (fun s e => noteTarget d path id s e.1 e.2) s).referenced ↔
      file ∈ s.referenced ∨ ∃ e ∈ targets, Refers d path e.2 file := by
  induction targets generalizing s with
  | nil => simp
  | cons e targets ih =>
    rw [List.foldl_cons, ih, mem_noteTarget_referenced]
    simp only [List.mem_cons, exists_eq_or_imp]
    exact or_assoc

theorem isDeclared_congr {info other : FileInfo} (h : info.markers = other.markers) (id : Text) :
    isDeclared info id = isDeclared other id := by
  rw [isDeclared, isDeclared, h]

theorem noteBlock_info (d : Disk) (at_ : Setting) (s : Scanned) (b : Block) :
    (noteBlock d at_ s b).info =
      { s.info with
        problems := s.info.problems ++ blockProblems d at_ (isDeclared s.info b.id) b
        markers := storeBlock at_ s.info.markers b } := by
  unfold noteBlock blockProblems storeBlock
  by_cases h : b.targets.isEmpty = true
  · by_cases hc : s.info.markers.contains b.id = true <;> simp [h, hc]
  · have hc : ∀ problems, isDeclared { s.info with problems } b.id = isDeclared s.info b.id :=
      fun _ => isDeclared_congr rfl _
    simp [h, foldl_noteTarget_info, hc]

theorem mem_noteBlock_referenced {d : Disk} {at_ : Setting} {s : Scanned} {b : Block}
    {file : Path} :
    file ∈ (noteBlock d at_ s b).referenced ↔
      file ∈ s.referenced ∨ ∃ target ∈ b.targets.values, Refers d at_.path target file := by
  unfold noteBlock
  by_cases h : b.targets.isEmpty = true
  · have hv : b.targets.values = [] := by simp [SortedMap.values, SortedMap.isEmpty_iff.mp h]
    simp only [h, if_true, hv, List.not_mem_nil, false_and, exists_false, or_false]
    split <;> rfl
  · simp only [h, if_false, Bool.false_eq_true, mem_foldl_noteTarget_referenced]
    simp only [SortedMap.values, List.mem_map, exists_exists_and_eq_and]

theorem mem_foldl_noteEvent_referenced {d : Disk} {at_ : Setting} {s : Scanned}
    {events : List Event} {file : Path} :
    file ∈ (events.foldl (noteEvent d at_) s).referenced ↔
      file ∈ s.referenced ∨
        ∃ b ∈ completed events, ∃ target ∈ b.targets.values, Refers d at_.path target file := by
  induction events generalizing s with
  | nil => simp [completed]
  | cons event events ih =>
    rw [List.foldl_cons, ih]
    cases event with
    | problem diagnostic => simp [noteEvent]
    | completed b =>
      simp only [noteEvent, mem_noteBlock_referenced, mem_completed, List.mem_cons,
        Event.completed.injEq, exists_eq_or_imp]
      exact or_assoc

/-- Whether one of the blocks declares something for the id. -/
def declares (blocks : List Block) (id : Text) : Bool :=
  blocks.any fun b => b.id == id && !b.targets.isEmpty

/-- The block that is kept for an id: the last one that declares something, or else the first. -/
def kept? (blocks : List Block) (id : Text) : Option Block :=
  ((blocks.filter fun b => b.id == id && !b.targets.isEmpty).getLast?).or
    (blocks.find? (·.id == id))

def markersOf (at_ : Setting) (blocks : List Block) : SortedMap Text Marker :=
  blocks.foldl (storeBlock at_) ∅

/-- The problems that events add behind those of earlier blocks. -/
def problemsOf (d : Disk) (at_ : Setting) (before : List Block) : List Event → List Diagnostic
  | [] => []
  | .problem diagnostic :: rest => diagnostic :: problemsOf d at_ before rest
  | .completed b :: rest =>
    blockProblems d at_ (declares before b.id) b ++ problemsOf d at_ (before ++ [b]) rest

theorem markersOf_concat (at_ : Setting) (blocks : List Block) (b : Block) :
    markersOf at_ (blocks ++ [b]) = storeBlock at_ (markersOf at_ blocks) b := by
  simp [markersOf]

theorem kept?_concat (blocks : List Block) (b : Block) (id : Text) :
    kept? (blocks ++ [b]) id =
      if b.id = id then
        if b.targets.isEmpty then (kept? blocks id).or (some b) else some b
      else kept? blocks id := by
  by_cases hid : b.id = id
  · by_cases he : b.targets.isEmpty = true
    · simp [kept?, hid, he]
    · simp [kept?, hid, he]
  · simp [kept?, hid]

theorem mem_of_kept? {blocks : List Block} {id : Text} {b : Block} (h : kept? blocks id = some b) :
    b ∈ blocks ∧ b.id = id := by
  rcases Option.or_eq_some_iff.mp h with h | ⟨-, h⟩
  · obtain ⟨hm, hb⟩ := List.mem_filter.mp (List.mem_of_getLast? h)
    exact ⟨hm, by simpa using (Bool.and_eq_true_iff.mp hb).1⟩
  · exact ⟨List.mem_of_find?_eq_some h, by simpa using List.find?_some h⟩

theorem find?_markersOf (at_ : Setting) (blocks : List Block) (id : Text) :
    (markersOf at_ blocks).find? id = (kept? blocks id).map (markerOf at_.relative) := by
  induction blocks using List.reverseRecOn with
  | nil => rfl
  | append_singleton blocks b ih =>
    rw [markersOf_concat, storeBlock, kept?_concat, SortedMap.contains]
    by_cases hid : b.id = id
    · subst hid
      rw [ih, if_pos rfl, Option.isSome_map]
      by_cases he : b.targets.isEmpty = true
      · cases hk : kept? blocks b.id with
        | none => simp [he]
        | some c => simp [he, ih, hk]
      · simp [he]
    · rw [if_neg hid, ← ih]
      split
      next => rfl
      next => exact SortedMap.find?_insert_of_ne _ _ (Ne.symm hid)

theorem any_kept? (blocks : List Block) (id : Text) :
    (kept? blocks id).any (fun b => !b.targets.isEmpty) = declares blocks id := by
  induction blocks using List.reverseRecOn with
  | nil => rfl
  | append_singleton blocks b ih =>
    have hc : declares (blocks ++ [b]) id =
        (declares blocks id || (b.id == id && !b.targets.isEmpty)) := by simp [declares]
    rw [kept?_concat, hc, ← ih]
    by_cases hid : b.id = id
    · by_cases he : b.targets.isEmpty = true
      · cases kept? blocks id <;> simp [hid, he]
      · simp [hid, he]
    · simp [hid]

theorem isDeclared_eq {info : FileInfo} {at_ : Setting} {blocks : List Block}
    (h : info.markers = markersOf at_ blocks) (id : Text) :
    isDeclared info id = declares blocks id := by
  rw [isDeclared, h, find?_markersOf, ← any_kept?]
  cases kept? blocks id with
  | none => rfl
  | some b => rfl

/-- Of a file's record only problems and markers change, and what they become depends on the
events and on the blocks before. -/
theorem foldl_noteEvent_info (d : Disk) (at_ : Setting) {s : Scanned} (before : List Block)
    (events : List Event) (h : s.info.markers = markersOf at_ before) :
    (events.foldl (noteEvent d at_) s).info =
      { s.info with
        problems := s.info.problems ++ problemsOf d at_ before events
        markers := markersOf at_ (before ++ completed events) } := by
  induction events generalizing s before with
  | nil => simp [problemsOf, completed, ← h]
  | cons event events ih =>
    rw [List.foldl_cons]
    cases event with
    | problem diagnostic =>
      rw [ih (s := noteEvent d at_ s (.problem diagnostic)) before h]
      simp [noteEvent, problemsOf, completed]
    | completed b =>
      have hb : (noteBlock d at_ s b).info.markers = markersOf at_ (before ++ [b]) := by
        rw [noteBlock_info, markersOf_concat, h]
      rw [ih (s := noteEvent d at_ s (.completed b)) (before ++ [b]) hb]
      simp [noteEvent, noteBlock_info, problemsOf, completed, isDeclared_eq h]

/-- All that a scan of the file at a path learns from its lines. -/
def eventsOf (d : Disk) (o : Options) (path : Path) (lines : List Line) : List Event :=
  Block.events o.tagSyntax (resolveTarget d (findRoot d path o.rootMarker)) (lines.map Line.raw)

def settingOf (d : Disk) (o : Options) (path : Path) : Setting :=
  ⟨path, (path.relativeTo? (findRoot d path o.rootMarker)).getD path.text, o.allowEmptyTags⟩

/-- The blocks that the file at a path completes, if it can be read to its end. -/
def blocksOf (d : Disk) (o : Options) (path : Path) : List Block :=
  match d.lines path with
  | .ok (lines, none) => completed (eventsOf d o path lines)
  | _ => []

theorem blocksOf_of_lines {d : Disk} {o : Options} {path : Path} {lines : List Line}
    (h : d.lines path = .ok (lines, none)) :
    blocksOf d o path = completed (eventsOf d o path lines) := by
  rw [blocksOf, h]

theorem scan_of_lines {d : Disk} {o : Options} {path : Path} {lines : List Line}
    (h : d.lines path = .ok (lines, none)) (readOnly : Bool) :
    scan d o path readOnly =
      let root := findRoot d path o.rootMarker
      let s := (eventsOf d o path lines).foldl (noteEvent d (settingOf d o path))
        ⟨FileInfo.new path.text root.text readOnly, []⟩
      ⟨{ s.info with lineCount := some lines.length }, if readOnly then [] else s.referenced⟩ := by
  rw [scan, h]
  rfl

theorem scan_info_of_lines {d : Disk} {o : Options} {path : Path} {lines : List Line}
    (h : d.lines path = .ok (lines, none)) (readOnly : Bool) :
    (scan d o path readOnly).info =
      { readOnly
        aliases := [path.text]
        root := (findRoot d path o.rootMarker).text
        markers := markersOf (settingOf d o path) (completed (eventsOf d o path lines))
        problems := problemsOf d (settingOf d o path) [] (eventsOf d o path lines)
        lineCount := some lines.length } := by
  rw [scan_of_lines h]
  dsimp only
  rw [foldl_noteEvent_info _ _ [] _ rfl]
  rfl

/-- Whether a file may be written is told to its scan and changes nothing else in its record. -/
theorem scan_info (d : Disk) (o : Options) (path : Path) (readOnly : Bool) :
    (scan d o path readOnly).info =
      { (scan d o path false).info with readOnly, aliases := [path.text] } := by
  rcases h : d.lines path with cause | ⟨lines, cause | cause⟩
  · simp only [scan, h]
    rfl
  · simp only [scan_info_of_lines h]
  · simp only [scan, h]
    rfl

theorem find?_scan_markers (d : Disk) (o : Options) (path : Path) (readOnly : Bool) (id : Text) :
    (scan d o path readOnly).info.markers.find? id =
      (kept? (blocksOf d o path) id).map (markerOf (settingOf d o path).relative) := by
  rcases h : d.lines path with cause | ⟨lines, cause | cause⟩
  · simp only [scan, h, blocksOf]
    rfl
  · simp only [scan_info_of_lines h, blocksOf, h, find?_markersOf]
  · simp only [scan, h, blocksOf]
    rfl

theorem mem_scan_referenced {d : Disk} {o : Options} {path file : Path} :
    file ∈ (scan d o path false).referenced ↔
      ∃ b ∈ blocksOf d o path, ∃ target ∈ b.targets.values, Refers d path target file := by
  rcases h : d.lines path with cause | ⟨lines, cause | cause⟩
  · simp [scan, h, unreadable, blocksOf]
  · rw [scan_of_lines h, blocksOf, h]
    simp only [Bool.false_eq_true, if_false, mem_foldl_noteEvent_referenced, List.not_mem_nil,
      false_or]
    rfl
  · simp [scan, h, unreadable, blocksOf]

end BlockSync.Scan
