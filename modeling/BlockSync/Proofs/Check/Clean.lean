import BlockSync.Proofs.Cache.Record
import BlockSync.Proofs.Check.Declared
import BlockSync.Proofs.Disk.Root
import BlockSync.Proofs.Text.Line

/-! What a check without findings means for the text of the requested files: every start line lies
in a closed block and records the checksum of what it points at. -/

namespace BlockSync.Check

open Block (contentBetween Closed)
open Cache (build)

/-- No closed block of the id ends behind this one. -/
structure LastClosed (s : TagSyntax) (lines : List Text) (id : Text) (first last : Nat) : Prop
    extends Closed s lines id first last where
  latest : ∀ {f l}, Closed s lines id f l → l ≤ last

/-- What a reference means in a file. -/
def meaning (d : Disk) (o : Options) (file : Path) (reference : Text) : TargetKind :=
  (Scan.resolveTarget d (Scan.findRoot d file o.rootMarker) reference).kind

/-- The file at `file` answers a tag of the file at `from_`: its last closed block of the id has
the recorded checksum and declares a target that leads back. -/
structure Answers (d : Disk) (o : Options) (from_ file : Path) (tag : Tag.Start)
    (lines : List Line) (first last : Nat) : Prop where
  readable : d.lines file = .ok (lines, none)
  block : LastClosed o.tagSyntax (lines.map Line.raw) tag.id first last
  recorded : tag.checksum.getD Checksum.absent =
    Checksum.content (contentBetween o.tagSyntax (lines.map Line.raw) first last)
  back : ∃ i line back name, first ≤ i ∧ i < last ∧ lines[i]? = some line ∧
    o.tagSyntax.classify line.text = .start back ∧ back.id = tag.id ∧
    meaning d o file back.target = .file name ∧ d.canonical (.ofText name) = .ok from_

/-- A start tag of a file whose block has this content records the right checksum. -/
def Synchronized (d : Disk) (o : Options) (file : Path) (content : List Text) (tag : Tag.Start) :
    Prop :=
  match meaning d o file tag.target with
  | .remote _ => ∃ relative,
    file.relativeTo? (Scan.findRoot d file o.rootMarker) = some relative ∧
      tag.checksum.getD Checksum.absent = Checksum.self content relative
  | .file name => d.isFile (.ofText name) = true ∧
    ∃ other lines first last, d.canonical (.ofText name) = .ok other ∧ other ≠ file ∧
      Answers d o file other tag lines first last

variable {d : Disk} {o : Options} {files : List Path}

theorem relativeTo?_findRoot (hd : d.WellFormed) {p q : Path} (h : d.canonical p = .ok q)
    (hf : d.isFile q = true) :
    ∃ relative, q.relativeTo? (Scan.findRoot d q o.rootMarker) = some relative := by
  obtain ⟨place, e, hfind, hq⟩ := Disk.canonical_eq_ok_iff.mp (hd.canonical_canonical h)
  have he := Disk.entry?_of_find hfind
  have hne : place ≠ [] := by
    rintro rfl
    obtain rfl : Disk.Entry.directory = e := by simpa using he
    simp [Disk.isFile, hfind] at hf
  have hs : Disk.Spelled place := hd.spelled he
  have hq' : q = Disk.pathOf place := hq
  obtain ⟨above, more, rfl, hm, hroot⟩ := hs.findRoot hne d o.rootMarker
  rw [hq', hroot]
  exact hs.relativeTo?_pathOf hm

theorem checkFileTarget_eq_none {cache : Cache} {info : FileInfo} {y : Declaration} {path : Text}
    (h : checkFileTarget o cache info y path = none) :
    ∃ other, returnMarker? cache info y.id path = some other ∧
      y.recorded = other.contentChecksum := by
  unfold checkFileTarget at h
  split at h
  next =>
    split at h
    next => simp at h
    next =>
      split at h
      next other hr => exact ⟨other, hr, checkChecksum_eq_none.mp h⟩
      next => simp at h
  next =>
    split at h
    next other hr => exact ⟨other, hr, checkChecksum_eq_none.mp h⟩
    next => simp at h

theorem nothing_of_checkFile {cache : Cache} {info : FileInfo} (h : checkFile o cache info = []) :
    (∀ x ∈ info.problems, x.problem = .fileDoesNotExist) ∧
      ∀ y : Declaration, info.markers.find? y.id = some y.marker →
        y.marker.targets.find? y.line = some y.target →
          checkDeclaration o cache info y = none := by
  have hno : ∀ x, x ∉ checkFile o cache info := by simp [h]
  constructor
  · intro x hx
    by_contra hp
    exact hno x (mem_checkFile.mpr (.inl ⟨hx, by simp [migrates, hp]⟩))
  · intro y hm ht
    cases hy : checkDeclaration o cache info y with
    | none => rfl
    | some x => exact absurd (mem_checkFile.mpr (.inr ⟨y, ⟨hm, ht⟩, hy⟩)) (hno x)

theorem checkFile_of_clean (hd : d.WellFormed)
    (hclean : ∀ r ∈ check o (build d o files), r.diagnostics = []) {f : Path} (hf : f ∈ files) :
    ∃ info, (build d o files).find? (Cache.keyOf d f) = some info ∧
      checkFile o (build d o files) info = [] := by
  obtain ⟨info, hk, hw⟩ := (Cache.writable_build hd).mpr ⟨f, hf, rfl⟩
  refine ⟨info, hk, hclean ⟨Cache.keyOf d f, checkFile o (build d o files) info⟩ ?_⟩
  refine List.mem_map.mpr ⟨(Cache.keyOf d f, info), ?_, rfl⟩
  exact List.mem_filter.mpr ⟨SortedMap.mem_entries_iff.mpr hk, by simp [hw]⟩

theorem lines_of_mem_blocksOf {p : Path} {b : Block} (hb : b ∈ Scan.blocksOf d o p) :
    ∃ lines, d.lines p = .ok (lines, none) ∧
      b ∈ Block.completed (Scan.eventsOf d o p lines) := by
  unfold Scan.blocksOf at hb
  split at hb
  next lines hl => exact ⟨lines, hl, hb⟩
  next => simp at hb

/-- A marker that answers is that of the last closed block of a file that can be read. -/
theorem exists_answer (hd : d.WellFormed) {a : Path} {info : FileInfo} {tag : Tag.Start}
    {path : Text} {marker : Marker} (hk : (build d o files).find? a.text = some info)
    (ha : d.canonical a = .ok a)
    (h : returnMarker? (build d o files) info tag.id path = some marker)
    (hrec : tag.checksum.getD Checksum.absent = marker.contentChecksum) :
    d.isFile (.ofText path) = true ∧ ∃ file lines first last,
      d.canonical (.ofText path) = .ok file ∧ Answers d o a file tag lines first last := by
  have hg := Cache.grouped_build (o := o) hd files
  obtain ⟨other, hother, hm, t, ht, name, hkind, hname⟩ := returnMarker?_eq_some.mp h
  have hlead : ∃ file, d.canonical (.ofText path) = .ok file := by
    cases hc : d.canonical (.ofText path) with
    | ok file => exact ⟨file, rfl⟩
    | error cause =>
      obtain ⟨readOnly, rfl⟩ := hg.unresolved hother hc
      simp [Cache.unresolvable, FileInfo.new] at hm
  obtain ⟨file, hfile⟩ := hlead
  rw [hg.markers_eq hd hother hfile] at hm
  have hkept := (Scan.find?_scan_markers d o file false tag.id).symm.trans hm
  obtain ⟨c, hc, rfl⟩ := Option.map_eq_some_iff.mp hkept
  obtain ⟨hmem, hid⟩ := Scan.mem_of_kept? hc
  obtain ⟨lines, hl, hev⟩ := lines_of_mem_blocksOf hmem
  obtain ⟨n, hn⟩ := SortedMap.mem_values_iff.mp ht
  have hne : c.targets.isEmpty = false := by
    apply Bool.eq_false_iff.mpr
    intro he
    have hn' : c.targets.find? n = some t := hn
    simp [SortedMap.find?, SortedMap.isEmpty_iff.mp he] at hn'
  obtain ⟨first, last, hmatch⟩ := Block.matches_of_mem_events hev hne
  refine ⟨?_, file, lines, first, last, hfile, hl, ⟨hid ▸ hmatch.closed, ?_⟩, ?_, ?_⟩
  · rw [← hd.isFile_canonical hfile]
    exact Cache.isFile_of_mem_blocksOf hmem
  · intro f l hclosed
    obtain ⟨b, hb, hbid, hbm⟩ :=
      hclosed.exists_matches (Scan.resolveTarget d (Scan.findRoot d file o.rootMarker))
    have hblocks := Scan.blocksOf_of_lines (o := o) hl
    have hp : (Scan.blocksOf d o file).Pairwise (·.endLine < ·.endLine) := by
      rw [hblocks]
      exact Block.pairwise_completed_events _
    have hle : b.endLine ≤ c.endLine :=
      Scan.endLine_le_of_kept? hp (hblocks ▸ hb) hbm.targets_ne_empty (hbid ▸ hc)
    rw [hbm.endLine_eq, hmatch.endLine_eq] at hle
    omega
  · rw [hrec, ← hmatch.content_eq]
    rfl
  · obtain ⟨i, raw, back, -, hfi, hil, hraw, hread, hbid, rfl⟩ :=
      (hmatch.find?_targets n t).mp hn
    rw [List.getElem?_map] at hraw
    obtain ⟨line, hi, rfl⟩ := Option.map_eq_some_iff.mp hraw
    rw [(hg.records hd hother hfile hl).reads_raw (List.mem_of_getElem? hi)] at hread
    have hback : d.canonical (.ofText name) = .ok a :=
      ((hg.mem_names hd hk ((Path.ofText_text a).symm ▸ ha)).mp hname).2
    exact ⟨i, line, back, name, hfi, hil, hi, hread, hbid.trans hid, hkind, hback⟩

theorem targetsSelf_of_canonical {a : Path} {name : Text} (h : d.canonical (.ofText name) = .ok a) :
    Scan.targetsSelf d a name = true := by
  simp [Scan.targetsSelf, h]

/-- If nothing is reported, then all requested files can be read, and each of their start lines lies
in a block that is closed and records the checksum of what it points at. -/
theorem synchronized_of_clean (hd : d.WellFormed)
    (hclean : ∀ r ∈ check o (build d o files), r.diagnostics = []) {f : Path} (hf : f ∈ files) :
    ∃ a lines, d.canonical f = .ok a ∧ d.lines f = .ok (lines, none) ∧
      ∀ i line tag, lines[i]? = some line → o.tagSyntax.classify line.text = .start tag →
        ∃ first last, Closed o.tagSyntax (lines.map Line.raw) tag.id first last ∧
          first ≤ i ∧ i < last ∧
          Synchronized d o a (contentBetween o.tagSyntax (lines.map Line.raw) first last) tag := by
  obtain ⟨info, hk, hnothing⟩ := checkFile_of_clean hd hclean hf
  obtain ⟨hproblems, hdecls⟩ := nothing_of_checkFile hnothing
  have hparsed : ∀ reason, Diagnostic.couldNotParse reason ∉ info.problems := by
    intro reason hx
    have hp : Problem.couldNotParse = .fileDoesNotExist := hproblems _ hx
    simp at hp
  obtain ⟨a, lines, hc, hl⟩ := Cache.exists_lines hd hk hparsed
  refine ⟨a, lines, hc, hd.lines_canonical hc ▸ hl, fun i line tag hi hclass => ?_⟩
  have ha := hd.canonical_canonical hc
  rw [Cache.keyOf_of_ok hc] at hk
  have hself : d.canonical (.ofText a.text) = .ok a := by rwa [Path.ofText_text]
  have hg := Cache.grouped_build (o := o) hd files
  have hrec := hg.records hd hk hself hl
  have hopen : ∀ n id, Diagnostic.startTagWithoutEndTag n id ∉ info.problems := by
    intro n id hx
    have hp : Problem.startTagWithoutEndTag = .fileDoesNotExist := hproblems _ hx
    simp at hp
  have hdup : ∀ n id, Diagnostic.duplicateMarker n id ∉ info.problems := by
    intro n id hx
    have hp : Problem.duplicateMarker = .fileDoesNotExist := hproblems _ hx
    simp at hp
  obtain ⟨first, last, b, hmatch, hfi, hil, hid, hb, hmarker, htarget⟩ :=
    hrec.exists_block hopen hdup hi hclass
  refine ⟨first, last, hid ▸ hmatch.closed, hfi, hil, ?_⟩
  have hright := hdecls ⟨tag.id, Scan.markerOf (Scan.settingOf d o a).relative b, i + 1, _⟩ hmarker
    htarget
  rw [← hmatch.content_eq]
  unfold Synchronized
  split
  next url hmean =>
    have hkind : (Cache.resolverOf d o a tag.target).kind = .remote url := hmean
    simp only [checkDeclaration, hkind, checkChecksum_eq_none] at hright
    obtain ⟨relative, hrel⟩ := relativeTo?_findRoot (o := o) hd hc
      (Disk.isFile_of_lines hl)
    refine ⟨relative, hrel, ?_⟩
    rw [show tag.checksum.getD Checksum.absent = _ from hright, Scan.markerOf, Scan.settingOf, hrel]
    rfl
  next name hmean =>
    have hkind : (Cache.resolverOf d o a tag.target).kind = .file name := hmean
    simp only [checkDeclaration, hkind] at hright
    obtain ⟨other, hreturn, hrecorded⟩ := checkFileTarget_eq_none hright
    obtain ⟨hfile, file, lines', first', last', hfc, hanswers⟩ :=
      exists_answer hd hk ha hreturn hrecorded
    refine ⟨hfile, file, lines', first', last', hfc, ?_, hanswers⟩
    rintro rfl
    -- a target in the file itself would be reported
    have hx : Diagnostic.selfTargeting (i + 1) b.id ∈
        Scan.problemsOf d (Scan.settingOf d o file) [] (Scan.eventsOf d o file lines) :=
      Scan.selfTargeting_mem hb htarget hkind (targetsSelf_of_canonical hfc)
    have hp : Problem.selfTargeting = .fileDoesNotExist := hproblems _ (hrec.problems_eq ▸ hx)
    simp at hp

/-- Two files that point at each other and agree. -/
def agreedDisk : Disk :=
  (Disk.bare.set ["a"] (.file (Text.Utf8.encode
    "# sync-start:m 8343824688036161609 b\nx\n# sync-end:m\n") 0o644#12)).set ["b"]
    (.file (Text.Utf8.encode "# sync-start:m 8343824688036161609 a\nx\n# sync-end:m\n") 0o644#12)

theorem agreedDisk_wellFormed : agreedDisk.WellFormed := by
  constructor <;> decide

theorem synchronized_agreedDisk :
    (∀ r ∈ check .standard (build agreedDisk .standard [.ofText "/a"]), r.diagnostics = []) ∧
      ∃ a lines, agreedDisk.canonical (.ofText "/a") = .ok a ∧
        agreedDisk.lines (.ofText "/a") = .ok (lines, none) ∧
        ∀ i line tag, lines[i]? = some line →
          Options.standard.tagSyntax.classify line.text = .start tag →
          ∃ first last, Closed Options.standard.tagSyntax (lines.map Line.raw) tag.id first last ∧
            first ≤ i ∧ i < last ∧
            Synchronized agreedDisk .standard a
              (contentBetween Options.standard.tagSyntax (lines.map Line.raw) first last) tag := by
  have hall : (build agreedDisk .standard [.ofText "/a"]).writable.all (fun e =>
      e.2.problems == [] && (declarations e.2).filterMap (checkDeclaration .standard
        (build agreedDisk .standard [.ofText "/a"]) e.2) == []) = true := by
    decide +kernel
  have hclean : ∀ r ∈ check .standard (build agreedDisk .standard [.ofText "/a"]),
      r.diagnostics = [] := by
    intro r hr
    obtain ⟨e, he, rfl⟩ := List.mem_map.mp hr
    have hh := List.all_eq_true.mp hall e he
    rw [Bool.and_eq_true, beq_iff_eq, beq_iff_eq] at hh
    exact checkFile_eq_nil hh.1 hh.2
  exact ⟨hclean, synchronized_of_clean agreedDisk_wellFormed hclean (List.mem_singleton_self _)⟩

end BlockSync.Check
