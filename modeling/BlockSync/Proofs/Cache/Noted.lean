import BlockSync.Proofs.Cache.Entry
import BlockSync.Proofs.Cache.Problems
import BlockSync.Proofs.Options

/-! What a scan keeps of all the blocks of a file. Of blocks with one id a single marker stays and
the repetition is reported, but the files that any of them points at are taken. What is found wrong
with a completed block depends on the blocks before it and not on the tags between them. -/

namespace BlockSync.Scan

open Block (Event completed)

variable {d : Disk} {at_ : Setting} {path : Path} {id : Text} {targets : List (Nat × Target)}
  {before blocks : List Block} {s : Scanned}

/-- What is wrong with blocks that are completed behind others. -/
def noted (d : Disk) (at_ : Setting) (before : List Block) : List Block → List Diagnostic
  | [] => []
  | b :: rest =>
    blockProblems d at_ (declares before b.id) b ++ noted d at_ (before ++ [b]) rest

/-- The blocks of the id that declare something. -/
def declaring (blocks : List Block) (id : Text) : List Block :=
  blocks.filter fun b => b.id == id && !b.targets.isEmpty

/-- A local target, with the block and the line that declare it. -/
structure Reference where
  line : Nat
  id : Text
  path : Path

def referencesIn (id : Text) (targets : List (Nat × Target)) : List Reference :=
  targets.filterMap fun e => e.2.kind.path?.map fun text => ⟨e.1, id, .ofText text⟩

/-- The local targets of blocks, in the order in which they are noted. -/
def references (blocks : List Block) : List Reference :=
  blocks.flatMap fun b => referencesIn b.id b.targets.entries

/-- The path is that of the file or leads to it. -/
def isOwn (d : Disk) (path p : Path) : Bool :=
  p == path || decide (d.canonical p = .ok path)

/-- The files other than the one at the path that are referred to. -/
def others (d : Disk) (path : Path) (references : List Reference) : List Path :=
  (references.map (·.path)).filter fun p => d.isFile p && !isOwn d path p

/-- All local targets are spelled the way paths are. -/
def Spelled (targets : List (Nat × Target)) : Prop :=
  ∀ e ∈ targets, ∀ text, e.2.kind = .file text → (Path.ofText text).text = text

theorem isOwn_iff (h : d.canonical path = .ok path) (p : Path) :
    isOwn d path p = true ↔ d.canonical p = .ok path := by
  rw [isOwn, Bool.or_eq_true, beq_iff_eq, decide_eq_true_eq]
  exact ⟨fun hp => hp.elim (fun he => he ▸ h) fun hc => hc, .inr⟩

theorem targetsSelf_eq {text : Text} (h : (Path.ofText text).text = text) :
    targetsSelf d path text = isOwn d path (.ofText text) := by
  have htext : text = path.text ↔ Path.ofText text = path :=
    ⟨fun he => by rw [he, Path.ofText_text], fun he => by rw [← he, h]⟩
  rw [Bool.eq_iff_iff, targetsSelf, isOwn, Bool.or_eq_true, Bool.or_eq_true, beq_iff_eq, beq_iff_eq,
    htext, decide_eq_true_eq]
  cases d.canonical (.ofText text) with
  | ok found => simp
  | error cause => simp

theorem references_append (front back : List Block) :
    references (front ++ back) = references front ++ references back :=
  List.flatMap_append

theorem others_append (front back : List Reference) :
    others d path (front ++ back) = others d path front ++ others d path back := by
  simp [others]

theorem referencesIn_cons (id : Text) (e : Nat × Target) (targets : List (Nat × Target)) :
    referencesIn id (e :: targets) = referencesIn id [e] ++ referencesIn id targets :=
  List.filterMap_append (l := [e])

theorem selfTargets_cons (id : Text) (e : Nat × Target) (targets : List (Nat × Target)) :
    selfTargets d path id (e :: targets) =
      selfTargets d path id [e] ++ selfTargets d path id targets :=
  List.filterMap_append (l := [e])

theorem selfTargets_singleton {e : Nat × Target}
    (h : ∀ text, e.2.kind = .file text → (Path.ofText text).text = text) :
    selfTargets d path id [e] = ((referencesIn id [e]).filter (isOwn d path ·.path)).map fun r =>
      .selfTargeting r.line r.id := by
  cases hk : e.2.kind with
  | remote url => simp [selfTargets, referencesIn, hk, TargetKind.path?]
  | file text =>
    have hs : targetsSelf d path text = isOwn d path (.ofText text) := targetsSelf_eq (h text hk)
    by_cases hown : isOwn d path (.ofText text) = true
    · simp [selfTargets, referencesIn, hk, TargetKind.path?, hs, hown]
    · simp [selfTargets, referencesIn, hk, TargetKind.path?, hs, hown]

theorem selfTargets_eq (h : Spelled targets) : selfTargets d path id targets =
    ((referencesIn id targets).filter (isOwn d path ·.path)).map fun r =>
      .selfTargeting r.line r.id := by
  induction targets with
  | nil => rfl
  | cons e targets ih =>
    have hrest : Spelled targets := fun e' he' => h e' (List.mem_cons_of_mem _ he')
    rw [selfTargets_cons, referencesIn_cons id e targets, List.filter_append, List.map_append,
      ih hrest, selfTargets_singleton (h e (by simp))]

theorem eraseDups_concat {α : Type} [DecidableEq α] (l : List α) (a : α) :
    (l ++ [a]).eraseDups = if a ∈ l then l.eraseDups else l.eraseDups ++ [a] := by
  rw [List.eraseDups_append]
  by_cases h : a ∈ l
  · simp [List.removeAll, h]
  · simp [List.removeAll, h, List.eraseDups_cons]

theorem referenced_noteTarget {l : List Path} (hs : s.referenced = l.eraseDups) {e : Nat × Target}
    (ht : ∀ text, e.2.kind = .file text → (Path.ofText text).text = text) :
    (noteTarget d path id s e.1 e.2).referenced =
      (l ++ others d path (referencesIn id [e])).eraseDups := by
  unfold noteTarget
  cases hk : e.2.kind with
  | remote url => simp [referencesIn, hk, TargetKind.path?, others, hs]
  | file text =>
    have hr : (referencesIn id [e]).map (·.path) = [.ofText text] := by
      simp [referencesIn, hk, TargetKind.path?]
    rw [others, hr]
    simp only [targetsSelf_eq (ht text hk)]
    by_cases hown : isOwn d path (.ofText text) = true
    · simp [hown, hs]
    · by_cases hf : d.isFile (.ofText text) = true
      · by_cases hc : Path.ofText text ∈ l
        · simp [hown, hf, hc, hs, eraseDups_concat]
        · simp [hown, hf, hc, hs, eraseDups_concat]
      · simp [hown, hf, hs]

theorem referenced_foldl_noteTarget {l : List Path} (hs : s.referenced = l.eraseDups)
    (ht : Spelled targets) :
    (targets.foldl (fun s e => noteTarget d path id s e.1 e.2) s).referenced =
      (l ++ others d path (referencesIn id targets)).eraseDups := by
  induction targets generalizing s l with
  | nil => simp [referencesIn, others, hs]
  | cons e targets ih =>
    have hrest : Spelled targets := fun e' he' => ht e' (List.mem_cons_of_mem _ he')
    rw [List.foldl_cons, ih (referenced_noteTarget hs (ht e (by simp))) hrest,
      referencesIn_cons id e targets, others_append, List.append_assoc]

theorem referenced_noteBlock {l : List Path} (hs : s.referenced = l.eraseDups) {b : Block}
    (hb : Spelled b.targets.entries) :
    (noteBlock d at_ s b).referenced = (l ++ others d at_.path (references [b])).eraseDups := by
  have hone : references [b] = referencesIn b.id b.targets.entries := List.flatMap_singleton ..
  rw [hone]
  unfold noteBlock
  by_cases h : b.targets.isEmpty = true
  · have hnone : others d at_.path (referencesIn b.id b.targets.entries) = [] := by
      rw [SortedMap.isEmpty_iff.mp h]
      rfl
    rw [hnone, List.append_nil, ← hs]
    simp only [h, if_true]
    split <;> rfl
  · simp only [h, if_false, Bool.false_eq_true]
    exact referenced_foldl_noteTarget hs hb

/-- The files that blocks refer to are taken in the order of their first occurrence. -/
theorem referenced_foldl_noteEvent {l : List Path} (hs : s.referenced = l.eraseDups)
    {events : List Event} (h : ∀ b ∈ completed events, Spelled b.targets.entries) :
    (events.foldl (noteEvent d at_) s).referenced =
      (l ++ others d at_.path (references (completed events))).eraseDups := by
  induction events generalizing s l with
  | nil => simp [completed, references, others, hs]
  | cons event events ih =>
    rw [List.foldl_cons]
    cases event with
    | problem x => exact ih hs h
    | completed b =>
      have hsplit : completed (.completed b :: events) = [b] ++ completed events := rfl
      rw [hsplit] at h ⊢
      rw [noteEvent, ih (referenced_noteBlock hs (h b (by simp))) fun c hc => h c (by simp_all),
        references_append, others_append, List.append_assoc]

theorem filter_problemsOf {p : Diagnostic → Bool} (hp : ∀ x, p x = true → x.problem.isNoted = true)
    {events : List Event} (h : ∀ x, Event.problem x ∈ events → x.problem.isTagged = true) :
    (problemsOf d at_ before events).filter p =
      (noted d at_ before (completed events)).filter p := by
  induction events generalizing before with
  | nil => rfl
  | cons event events ih =>
    have hrest : ∀ x, Event.problem x ∈ events → x.problem.isTagged = true :=
      fun x hx => h x (List.mem_cons_of_mem _ hx)
    cases event with
    | problem x =>
      have hx : ¬p x = true := fun hpx => by
        have hnot := Problem.isNoted_of_isTagged (h x List.mem_cons_self)
        rw [hp x hpx] at hnot
        exact Bool.false_ne_true hnot.symm
      rw [problemsOf, List.filter_cons_of_neg hx, ih hrest]
      rfl
    | completed b =>
      rw [problemsOf, List.filter_append, ih hrest, ← List.filter_append]
      rfl

theorem filter_noted {p : Diagnostic → Bool} {f : Block → List Diagnostic}
    (h : ∀ again b, b ∈ blocks → (blockProblems d at_ again b).filter p = f b) :
    (noted d at_ before blocks).filter p = blocks.flatMap f := by
  induction blocks generalizing before with
  | nil => rfl
  | cons b rest ih =>
    have hrest := fun again c hc => h again c (List.mem_cons_of_mem b hc)
    rw [noted, List.filter_append, h _ b List.mem_cons_self, ih hrest, List.flatMap_cons]

theorem filter_blockProblems (again : Bool) (b : Block) (p : Diagnostic → Bool) :
    (blockProblems d at_ again b).filter p =
      (selfTargets d at_.path b.id b.targets.entries).filter p ++
        ((if !b.targets.isEmpty && again && p (.duplicateMarker b.firstLine b.id) then
            [.duplicateMarker b.firstLine b.id] else []) ++
          if !b.targets.isEmpty && b.content.isEmpty && !at_.allowEmpty &&
              p (.emptyMarker b.firstLine b.id) then
            [.emptyMarker b.firstLine b.id] else []) := by
  unfold blockProblems
  by_cases h : b.targets.isEmpty = true
  · simp [h, SortedMap.isEmpty_iff.mp h, selfTargets]
  · simp only [h, if_false, Bool.false_eq_true, List.filter_append, Bool.not_false, Bool.true_and]
    congr 2
    · cases again <;> simp [List.filter_cons]
    · by_cases he : (b.content.isEmpty && !at_.allowEmpty) = true
      · simp [he, List.filter_cons]
      · simp [he]

/-- Whether a problem says that a block of the id was declared before. -/
def repeats (id : Text) (x : Diagnostic) : Bool :=
  x.problem == .duplicateMarker && x.id == some id

theorem filter_blockProblems_repeats (again : Bool) (b : Block) (id : Text) :
    (blockProblems d at_ again b).filter (repeats id) =
      if (b.id == id && !b.targets.isEmpty) && again then [.duplicateMarker b.firstLine id]
      else [] := by
  have hself : (selfTargets d at_.path b.id b.targets.entries).filter (repeats id) = [] :=
    List.filter_eq_nil_iff.mpr fun x hx => by simp [repeats, problem_of_mem_selfTargets hx]
  have hempty : repeats id (.emptyMarker b.firstLine b.id) = false := rfl
  have hsame : repeats id (.duplicateMarker b.firstLine b.id) = (b.id == id) := rfl
  rw [filter_blockProblems, hself, hempty, hsame]
  by_cases hid : b.id = id
  · simp [hid]
  · simp [hid]

theorem declaring_cons (b : Block) (rest : List Block) (id : Text) :
    declaring (b :: rest) id =
      if b.id == id && !b.targets.isEmpty then b :: declaring rest id else declaring rest id :=
  List.filter_cons

theorem filter_noted_repeats (before blocks : List Block) (id : Text) :
    (noted d at_ before blocks).filter (repeats id) =
      ((declaring blocks id).drop (if declares before id then 0 else 1)).map fun b =>
        .duplicateMarker b.firstLine id := by
  induction blocks generalizing before with
  | nil => simp [noted, declaring]
  | cons b rest ih =>
    have hd : declares (before ++ [b]) id =
        (declares before id || (b.id == id && !b.targets.isEmpty)) := by simp [declares]
    rw [noted, List.filter_append, ih, hd, filter_blockProblems_repeats, declaring_cons]
    -- only the first block with declarations is not reported, unless there was one before
    by_cases hb : (b.id == id && !b.targets.isEmpty) = true
    · have hid : b.id = id := by simpa using (Bool.and_eq_true_iff.mp hb).1
      rw [hb, hid]
      cases declares before id <;> simp
    · simp [hb]

/-- A block with declarations and without content. -/
def isVoid (b : Block) : Bool :=
  !b.targets.isEmpty && b.content.isEmpty

theorem filter_noted_empty (before blocks : List Block) :
    (noted d at_ before blocks).filter (·.problem == .emptyMarker) =
      if at_.allowEmpty then []
      else (blocks.filter isVoid).map fun b => .emptyMarker b.firstLine b.id := by
  have hblock : ∀ again b, b ∈ blocks →
      (blockProblems d at_ again b).filter (·.problem == .emptyMarker) =
        ([b].filter fun b => isVoid b && !at_.allowEmpty).map fun b =>
          .emptyMarker b.firstLine b.id := by
    intro again b _
    have hself : (selfTargets d at_.path b.id b.targets.entries).filter
        (·.problem == .emptyMarker) = [] :=
      List.filter_eq_nil_iff.mpr fun x hx => by simp [problem_of_mem_selfTargets hx]
    have hdup : ((Diagnostic.duplicateMarker b.firstLine b.id).problem == .emptyMarker) = false :=
      rfl
    have hempty : ((Diagnostic.emptyMarker b.firstLine b.id).problem == .emptyMarker) = true := rfl
    rw [filter_blockProblems, hself, hdup, hempty, Bool.and_false, Bool.and_true, ← isVoid]
    by_cases hv : (isVoid b && !at_.allowEmpty) = true
    · rw [if_pos hv, List.filter_cons, if_pos hv]
      rfl
    · rw [if_neg hv, List.filter_cons, if_neg hv]
      rfl
  rw [filter_noted hblock, ← List.map_flatMap, ← List.filter_flatMap, List.flatMap_singleton']
  cases at_.allowEmpty <;> simp

theorem filter_noted_self (before : List Block) (h : ∀ b ∈ blocks, Spelled b.targets.entries) :
    (noted d at_ before blocks).filter (·.problem == .selfTargeting) =
      ((references blocks).filter (isOwn d at_.path ·.path)).map fun r =>
        .selfTargeting r.line r.id := by
  have hblock : ∀ again b, b ∈ blocks →
      (blockProblems d at_ again b).filter (·.problem == .selfTargeting) =
        ((referencesIn b.id b.targets.entries).filter (isOwn d at_.path ·.path)).map fun r =>
          .selfTargeting r.line r.id := by
    intro again b hb
    have hself : (selfTargets d at_.path b.id b.targets.entries).filter
        (·.problem == .selfTargeting) = selfTargets d at_.path b.id b.targets.entries :=
      List.filter_eq_self.mpr fun x hx => by simp [problem_of_mem_selfTargets hx]
    rw [← selfTargets_eq (h b hb)]
    simp [filter_blockProblems, hself, Diagnostic.duplicateMarker, Diagnostic.emptyMarker,
      Diagnostic.onLine]
  rw [filter_noted hblock, references, List.filter_flatMap, List.map_flatMap]

/-- What a scan of the file at a path keeps of the blocks that the file completes. -/
structure Keeps (d : Disk) (o : Options) (path : Path) (readOnly : Bool) (blocks : List Block)
    (s : Scanned) : Prop where
  find?_markers : ∀ id, s.info.markers.find? id =
    ((declaring blocks id).getLast?.or (blocks.find? (·.id == id))).map
      (markerOf (settingOf d o path).relative)
  repeated : ∀ id, s.info.problems.filter (repeats id) =
    (declaring blocks id).tail.map fun b => .duplicateMarker b.firstLine id
  count_repeated : ∀ id, s.info.problems.countP (repeats id) = (declaring blocks id).length - 1
  empty : s.info.problems.filter (·.problem == .emptyMarker) =
    if o.allowEmptyTags then []
    else (blocks.filter isVoid).map fun b => .emptyMarker b.firstLine b.id
  own : s.info.problems.filter (·.problem == .selfTargeting) =
    ((references blocks).filter (isOwn d path ·.path)).map fun r => .selfTargeting r.line r.id
  own_iff : d.canonical path = .ok path →
    ∀ p, isOwn d path p = true ↔ d.canonical p = .ok path
  referenced : s.referenced = if readOnly then [] else (others d path (references blocks)).eraseDups

theorem spelled_of_mem_completed {o : Options} {lines : List Line} {b : Block}
    (hb : b ∈ completed (eventsOf d o path lines)) : Spelled b.targets.entries := by
  intro e he text hk
  obtain ⟨_, _, _, -, -, -, -, ht⟩ :=
    Block.exists_start_of_mem_events hb (SortedMap.mem_entries_iff.mp he)
  rw [ht] at hk
  exact Cache.text_of_resolveTarget hk

/-- What a scan finds in completed blocks does not depend on the tags between them. -/
theorem filter_scan_problems {o : Options} {lines : List Line}
    (h : d.lines path = .ok (lines, none)) (readOnly : Bool) {p : Diagnostic → Bool}
    (hp : ∀ x, p x = true → x.problem.isNoted = true) :
    (scan d o path readOnly).info.problems.filter p =
      (noted d (settingOf d o path) [] (completed (eventsOf d o path lines))).filter p := by
  rw [scan_info_of_lines h]
  exact filter_problemsOf hp fun x hx => Block.isTagged_events hx

/-- Of the blocks with one id the last one that declares something is stored, or else the first
one, and each further one with declarations is reported; the files that any block refers to are
taken. -/
theorem keeps_scan {o : Options} {lines : List Line} (h : d.lines path = .ok (lines, none))
    (readOnly : Bool) :
    Keeps d o path readOnly (completed (eventsOf d o path lines)) (scan d o path readOnly) := by
  have hkind : ∀ kind : Problem, kind.isNoted = true →
      ∀ x : Diagnostic, (x.problem == kind) = true → x.problem.isNoted = true := by
    intro kind hkind x hx
    rwa [beq_iff_eq.mp hx]
  have hrepeated : ∀ id, (scan d o path readOnly).info.problems.filter (repeats id) =
      (declaring (completed (eventsOf d o path lines)) id).tail.map fun b =>
        .duplicateMarker b.firstLine id := by
    intro id
    have hnoted : ∀ x, repeats id x = true → x.problem.isNoted = true :=
      fun x hx => hkind .duplicateMarker rfl x (Bool.and_eq_true_iff.mp hx).1
    rw [filter_scan_problems h readOnly hnoted, filter_noted_repeats, ← List.drop_one]
    rfl
  constructor
  case find?_markers =>
    intro id
    rw [find?_scan_markers, blocksOf_of_lines h]
    rfl
  case repeated =>
    exact hrepeated
  case count_repeated =>
    intro id
    rw [List.countP_eq_length_filter, hrepeated, List.length_map, List.length_tail]
  case empty =>
    rw [filter_scan_problems h readOnly (hkind .emptyMarker rfl), filter_noted_empty]
    rfl
  case own =>
    rw [filter_scan_problems h readOnly (hkind .selfTargeting rfl),
      filter_noted_self _ fun b => spelled_of_mem_completed]
    rfl
  case own_iff =>
    exact isOwn_iff
  case referenced =>
    rw [scan_of_lines h]
    dsimp only
    rw [referenced_foldl_noteEvent (l := []) rfl fun b => spelled_of_mem_completed, List.nil_append]
    rfl

/-- A file with two blocks of one id and an end tag on its own between them. The second block is
empty and points at its own file. -/
def repeatingDisk : Disk :=
  (Disk.bare.set ["a"] (.file (Text.Utf8.encode
    "# sync-start:m b\nx\n# sync-end:m\n# sync-end:m\n# sync-start:m a\n# sync-end:m\n")
    0o644#12)).set ["b"] (.file (Text.Utf8.encode "y\n") 0o644#12)

theorem keeps_repeatingDisk :
    ∃ blocks, Keeps repeatingDisk .standard (.ofText "/a") false blocks
        (scan repeatingDisk .standard (.ofText "/a") false) ∧
      blocks.map (·.firstLine) = [1, 4, 5] ∧
        (scan repeatingDisk .standard (.ofText "/a") false).referenced = [.ofText "/b"] := by
  have hlines : repeatingDisk.lines (.ofText "/a") = .ok ([⟨"# sync-start:m b", "\n"⟩, ⟨"x", "\n"⟩,
      ⟨"# sync-end:m", "\n"⟩, ⟨"# sync-end:m", "\n"⟩, ⟨"# sync-start:m a", "\n"⟩,
      ⟨"# sync-end:m", "\n"⟩], none) := by
    decide +kernel
  have hkeeps := keeps_scan (o := .standard) hlines false
  exact ⟨_, hkeeps, by decide +kernel, hkeeps.referenced.trans (by decide +kernel)⟩

end BlockSync.Scan
