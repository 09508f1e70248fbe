import BlockSync.Proofs.Check.Convergence
import BlockSync.Proofs.Report
import BlockSync.Proofs.Run

/-! Runs that repair. All that changes on the disk are start tags in files of the run's paths, and
no checksum of a block depends on these. -/

namespace BlockSync.Run

open Block (Retagged)
open Cache (build)
open Check (Chosen FileReport Fixable Legible check repairedLines)
open Disk (Entry Modes pathOf placeText)
open Repair (Applicable applyEach repaired)
open Text.Utf8 (Bytes encode)

variable {d : Disk} {o : Options} {files : List Path} {reports : List FileReport}
  {content : Place → Option Bytes}

/-- Both are texts, and all that differs in the second one are start tags. -/
structure Retags (s : TagSyntax) (bytes bytes' : Bytes) (lines lines' : List Line) : Prop where
  read_eq : Line.read bytes = ⟨lines, none⟩
  bytes_eq : bytes = encode (lines.flatMap Line.raw)
  read_eq' : Line.read bytes' = ⟨lines', none⟩
  bytes_eq' : bytes' = encode (lines'.flatMap Line.raw)
  retagged : Retagged s [] lines lines'

def RetagsFile (modes : Modes) (s : TagSyntax) (e e' : Entry) : Prop :=
  ∃ bytes bytes' mode lines lines', e = .file bytes mode ∧
    e' = .file bytes' (modes.kept bytes' mode) ∧ Retags s bytes bytes' lines lines'

/-- All that differs in the new content of a file are start tags. -/
def OnlyRetags (d : Disk) (s : TagSyntax) (content : Place → Option Bytes) : Prop :=
  ∀ place e, d.entry? place = some e → content place ≠ none →
    RetagsFile d.modes s e (e.withContent d.modes (content place))

def checksums (markers : SortedMap Text Marker) : SortedMap Text (Text × Text) :=
  markers.map fun _ marker => (marker.contentChecksum, marker.selfChecksum)

theorem lines_eq_iff_read {p : Path} {place : Place} {bytes : Bytes} {mode : Disk.Mode}
    {lines : List Line} (hfind : d.find p.text = .ok (place, .file bytes mode)) :
    d.lines p = .ok (lines, none) ↔ Line.read bytes = ⟨lines, none⟩ := by
  rw [Disk.lines, hfind]
  dsimp only
  generalize Line.read bytes = reading
  cases reading with
  | mk lines' fault => simp

/-- A file in which only start tags differ completes the same blocks. -/
theorem OnlyRetags.blocksOf (h : OnlyRetags d o.tagSyntax content) (p : Path) :
    List.Forall₂ Block.Restates (Scan.blocksOf d o p) (Scan.blocksOf (d.revised content) o p) := by
  by_cases hsame : ∀ place e, d.find p.text = .ok (place, e) → content place = none
  · have hlines : (d.revised content).lines p = d.lines p := Disk.lines_revised_of_none hsame
    rw [Scan.blocksOf_revised hlines]
    exact List.forall₂_same.mpr fun b _ => (Block.Echoes.refl b).restates
  · -- the path leads to a file with new content
    simp only [not_forall] at hsame
    obtain ⟨place, e, hfind, hnew⟩ := hsame
    obtain ⟨bytes, bytes', mode, lines, lines', rfl, he', hretags⟩ :=
      h place e (Disk.entry?_of_find hfind) hnew
    have hfind' : (d.revised content).find p.text =
        .ok (place, .file bytes' (d.modes.kept bytes' mode)) := by
      rw [Disk.find_revised, hfind, Except.map, he']
    have hlines := (lines_eq_iff_read hfind).mpr hretags.read_eq
    have hlines' := (lines_eq_iff_read hfind').mpr hretags.read_eq'
    have hw := (Disk.cut_of_lines hlines).2
    have hw' := (Disk.cut_of_lines hlines').2
    rw [Scan.blocksOf_of_lines hlines, Scan.blocksOf_of_lines hlines', Scan.eventsOf_revised]
    exact hretags.retagged.restates_events hw hw' _ _

theorem OnlyRetags.checksums_scan (h : OnlyRetags d o.tagSyntax content) (p : Path)
    (readOnly : Bool) :
    checksums (Scan.scan (d.revised content) o p readOnly).info.markers =
      checksums (Scan.scan d o p readOnly).info.markers := by
  refine SortedMap.ext_find? fun id => ?_
  have hkept := Scan.rel_kept? (fun hb => hb) (h.blocksOf p) id
  rw [checksums, checksums, SortedMap.find?_map, SortedMap.find?_map, Scan.find?_scan_markers,
    Scan.find?_scan_markers, Scan.settingOf_revised]
  generalize Scan.kept? (Scan.blocksOf d o p) id = kept at hkept
  generalize Scan.kept? (Scan.blocksOf (d.revised content) o p) id = kept' at hkept
  cases hkept with
  | none => rfl
  | some hb => simp only [Option.map_some, Scan.markerOf, hb.content_eq]

/-- A path of the run leads to the place. -/
def Enumerated (d : Disk) (o : Options) (paths : List Path) (place : Place) : Prop :=
  ∃ files, Enumerate.enumerate d o paths = .ok files ∧ ∃ f ∈ files, ∃ q,
    d.canonical f = .ok q ∧ q.text = placeText place

/-- All that differs on the second disk are start tags in files that the paths lead to, and no scan
of it tells other checksums. -/
structure Confined (d : Disk) (o : Options) (paths : List Path) (after : Disk) : Prop where
  others : ∀ place, ¬Enumerated d o paths place → after.entry? place = d.entry? place
  retags : ∀ place, after.entry? place = d.entry? place ∨
    ∃ e e', d.entry? place = some e ∧ after.entry? place = some e' ∧
      RetagsFile d.modes o.tagSyntax e e'
  checksums_eq : ∀ p readOnly, checksums (Scan.scan after o p readOnly).info.markers =
    checksums (Scan.scan d o p readOnly).info.markers

theorem Confined.refl (d : Disk) (o : Options) (paths : List Path) : Confined d o paths d :=
  ⟨fun _ _ => rfl, fun _ => .inl rfl, fun _ _ => rfl⟩

theorem confined_revised {paths : List Path} (h : OnlyRetags d o.tagSyntax content)
    (hplaces : ∀ place e, d.entry? place = some e → content place ≠ none →
      Enumerated d o paths place) : Confined d o paths (d.revised content) := by
  have hentry : ∀ place, Disk.entry? (d.revised content) place = d.entry? place ∨
      ∃ e, d.entry? place = some e ∧ content place ≠ none ∧
        Disk.entry? (d.revised content) place = some (e.withContent d.modes (content place)) := by
    intro place
    rw [Disk.entry?_revised]
    cases he : d.entry? place with
    | none => exact .inl rfl
    | some e =>
      by_cases hnew : content place = none
      · left
        simp [hnew]
      · exact .inr ⟨e, rfl, hnew, rfl⟩
  refine ⟨fun place hno => ?_, fun place => ?_, h.checksums_scan⟩
  · rcases hentry place with hsame | ⟨e, he, hnew, -⟩
    · exact hsame
    · exact absurd (hplaces place e he hnew) hno
  · rcases hentry place with hsame | ⟨e, he, hnew, he'⟩
    · exact .inl hsame
    · exact .inr ⟨e, _, he, he', h place e he hnew⟩

/-- The report is of the file at the place, all of whose findings can be repaired. -/
structure Mended (d : Disk) (o : Options) (files : List Path) (place : Place) (r : FileReport)
    (q : Path) (info : FileInfo) (lines : List Line) : Prop where
  legible : Legible d o files r q info lines
  fixable : Fixable o (build d o files) info
  requested : ∃ f ∈ files, d.canonical f = .ok q
  applicable : Repair.Applicable d r place lines
  find_eq : ∃ bytes mode, d.find q.text = .ok (place, .file bytes mode)

theorem exists_mended (hd : d.WellFormed) (hc : Chosen d o files reports) {place : Place}
    {e : Entry} (he : d.entry? place = some e) (hnew : repaired d reports place ≠ none) :
    ∃ r ∈ reports, ∃ q info lines, Mended d o files place r q info lines := by
  obtain ⟨r, hr, hpath⟩ : ∃ r ∈ reports, r.path = placeText place := by
    by_contra hno
    exact hnew (Repair.repaired_eq_none fun r hr hpath => hno ⟨r, hr, hpath⟩)
  obtain ⟨q, info, lines, h, hfix, hf⟩ :=
    Check.exists_legible hd (hc.reported r hr) (hc.fixable r hr)
  obtain ⟨place', bytes, mode, hfind, happly⟩ := h.exists_applicable hd
  -- no two places share their text
  obtain rfl : place' = place := happly.place_eq hd he hpath
  exact ⟨r, hr, q, info, lines, h, hfix, hf, happly, bytes, mode, hfind⟩

theorem onlyRetags_repaired (hd : d.WellFormed) (ho : o.Valid) (hs : o.Settled)
    (hc : Chosen d o files reports) : OnlyRetags d o.tagSyntax (repaired d reports) := by
  intro place e he hnew
  obtain ⟨r, hr, q, info, lines, h⟩ := exists_mended hd hc he hnew
  obtain ⟨bytes, mode, hfind⟩ := h.find_eq
  obtain rfl : e = .file bytes mode := Option.some.inj (he.symm.trans (Disk.entry?_of_find hfind))
  have hrecords := h.legible.records
  have hrecordable := h.legible.recordable hd
  have hread : Line.read bytes = ⟨lines, none⟩ := (lines_eq_iff_read hfind).mp hrecords.lines_eq
  have hcut := Check.cut_repairedLines hrecords hrecordable
  have hretagged : Retagged o.tagSyntax [] lines
      (repairedLines d o (build d o files) q info lines) :=
    Block.retagged_revise (Options.plain_of_valid ho) (Check.sound hrecords hrecordable) .initial
  refine ⟨bytes, _, mode, lines, _, rfl, ?_,
    hread, (Line.encode_of_read hread).symm, hcut.read_encode, rfl, hretagged⟩
  rw [hc.repaired_eq hs hr h.legible h.fixable h.applicable]
  rfl

theorem enumerated_of_repaired (hd : d.WellFormed) (hc : Chosen d o files reports)
    {paths : List Path} (hfiles : Enumerate.enumerate d o paths = .ok files) {place : Place}
    {e : Entry} (he : d.entry? place = some e) (hnew : repaired d reports place ≠ none) :
    Enumerated d o paths place := by
  obtain ⟨r, -, q, info, lines, h⟩ := exists_mended hd hc he hnew
  obtain ⟨f, hf, hq⟩ := h.requested
  exact ⟨files, hfiles, f, hf, q, hq, h.legible.path_eq.symm.trans h.applicable.path_eq⟩

/-- The reports of the files that a run repairs. -/
def toRepair (reports : List FileReport) : List FileReport :=
  reports.filter fun file => file.diagnostics != [] && file.fixable

theorem chosen_toRepair (d : Disk) (o : Options) (files : List Path) :
    Chosen d o files (toRepair (check o (build d o files))) where
  nodup := Check.nodup_check.filter _
  reported _ hr := (List.mem_filter.mp hr).1
  fixable _ hr := (Bool.and_eq_true_iff.mp (List.mem_filter.mp hr).2).2

theorem settle_of_toRepair {r : Report} (hauto : r.autoFix = true) (hdry : r.dryRun = false)
    {file : FileReport} (hne : file.diagnostics ≠ []) (hfix : file.fixable = true) :
    (r.settle d ⟨.ofText file.path, file.diagnostics⟩).2 =
      (Repair.apply d (.ofText file.path) file.fixes false).2 := by
  have hall : (r.autoFix && file.diagnostics.all Diagnostic.isFixable) = true :=
    Bool.and_eq_true_iff.mpr ⟨hauto, hfix⟩
  have hfixes : Repair.apply d (.ofText file.path) (file.diagnostics.filterMap Diagnostic.fix)
      r.dryRun = Repair.apply d (.ofText file.path) file.fixes false := by rw [hdry]; rfl
  simp only [Report.settle, if_neg hne, hall, if_true, hfixes]
  split <;> simp [*]

theorem settle_of_not_toRepair {r : Report} {file : FileReport}
    (h : file.diagnostics = [] ∨ file.fixable = false) :
    (r.settle d ⟨.ofText file.path, file.diagnostics⟩).2 = d := by
  by_cases hclean : file.diagnostics = []
  · have hsettle : r.settle d ⟨.ofText file.path, file.diagnostics⟩ = _ :=
      Report.settle_of_clean hclean
    rw [hsettle]
  · have hall : (r.autoFix && file.diagnostics.all Diagnostic.isFixable) = false :=
      Bool.and_eq_false_iff.mpr (.inr (h.resolve_left hclean))
    have hsettle : r.settle d ⟨.ofText file.path, file.diagnostics⟩ = _ :=
      Report.settle_of_told hclean hall
    rw [hsettle]

/-- A report that repairs comes to the disk that repairing the files alone comes to. -/
theorem settleAll_disk {r : Report} (hauto : r.autoFix = true) (hdry : r.dryRun = false) (d : Disk)
    (reports : List FileReport) : (settleAll r d reports).2 = applyEach d (toRepair reports) := by
  induction reports generalizing r d with
  | nil => rfl
  | cons file rest ih =>
    have hmode := r.settle_mode d ⟨.ofText file.path, file.diagnostics⟩
    rw [settleAll]
    dsimp only
    rw [ih (hmode.1.trans hauto) (hmode.2.trans hdry)]
    by_cases hrepair : (file.diagnostics != [] && file.fixable) = true
    · have hfirst : toRepair (file :: rest) = file :: toRepair rest :=
        List.filter_cons_of_pos hrepair
      obtain ⟨hne, hfix⟩ := Bool.and_eq_true_iff.mp hrepair
      rw [hfirst, settle_of_toRepair hauto hdry (bne_iff_ne.mp hne) hfix]
      rfl
    · have hrest : toRepair (file :: rest) = toRepair rest := List.filter_cons_of_neg hrepair
      rw [hrest, settle_of_not_toRepair (by simpa [Classical.or_iff_not_imp_left] using hrepair)]

/-- A report that is repaired is of a file that the paths of the run lead to. -/
theorem exists_enumerated_of_toRepair (hd : d.WellFormed) {paths : List Path}
    (hfiles : Enumerate.enumerate d o paths = .ok files) {r : FileReport}
    (hr : r ∈ toRepair (check o (build d o files))) :
    ∃ place lines, Applicable d r place lines ∧ Enumerated d o paths place := by
  have hc := chosen_toRepair d o files
  obtain ⟨q, info, lines, h, -, f, hf, hq⟩ :=
    Check.exists_legible hd (hc.reported r hr) (hc.fixable r hr)
  obtain ⟨place, bytes, mode, -, happly⟩ := h.exists_applicable hd
  exact ⟨place, lines, happly, files, hfiles, f, hf, q, hq, h.path_eq.symm.trans happly.path_eq⟩

/-- A run repairs the files whose neighbours can be named. -/
theorem settle_of_repairing (hd : d.WellFormed) (hauto : o.autoFix = true) (hdry : o.dryRun = false)
    {paths : List Path} (hfiles : Enumerate.enumerate d o paths = .ok files)
    (hv : ∀ place, Enumerated d o paths place → d.Vacant (pathOf place)) :
    ∃ reports, Chosen d o files reports ∧
      (settle d o (build d o files)).2 = d.revised (repaired d reports) := by
  have hc := chosen_toRepair d o files
  have hrepair : ∀ r ∈ toRepair (check o (build d o files)),
      ∃ place lines, Applicable d r place lines ∧ Enumerated d o paths place :=
    fun r hr => exists_enumerated_of_toRepair hd hfiles hr
  obtain ⟨heach, -⟩ := Repair.applyEach_eq hd
    (fun r hr => by
      obtain ⟨place, lines, happly, -⟩ := hrepair r hr
      exact ⟨place, lines, happly⟩)
    (fun r hr => by
      obtain ⟨place, lines, happly, hplace⟩ := hrepair r hr
      rw [happly.path_eq]
      exact hv place hplace)
    hc.nodup_paths
  refine ⟨_, hc.filter fun r => d.Fits (.ofText r.path), ?_⟩
  exact (settleAll_disk (r := .new o.autoFix o.dryRun) hauto hdry d _).trans heach

/-- A run that repairs changes nothing but start tags in files that its paths lead to, and no
checksum of a block, if nothing bears the name of the neighbour of such a file. -/
theorem confined_run (hd : d.WellFormed) (ho : o.Valid) (hs : o.Settled)
    (hauto : o.autoFix = true) (hdry : o.dryRun = false) (hcache : o.cache = none)
    {paths : List Path} (hv : ∀ place, Enumerated d o paths place → d.Vacant (pathOf place)) :
    Confined d o paths (run d o paths).2 := by
  rw [run_of_uncached hcache]
  cases hscan : scan? d o paths with
  | error failure => exact .refl d o paths
  | ok scanned =>
    cases scanned with
    | none => exact .refl d o paths
    | some cache =>
      obtain ⟨files, hfiles, rfl⟩ := eq_build_of_scan? hscan
      obtain ⟨reports, hc, hdisk⟩ := settle_of_repairing hd hauto hdry hfiles hv
      dsimp only
      rw [hdisk]
      exact confined_revised (onlyRetags_repaired hd ho hs hc) fun place e he hnew =>
        enumerated_of_repaired hd hc hfiles he hnew

theorem confined_run_staleDisk :
    let o : Options := { Options.standard with autoFix := true }
    let paths : List Path := [.ofText "/a", .ofText "/b"]
    (Check.staleDisk.WellFormed ∧ o.Valid ∧ o.Settled) ∧
      (o.autoFix = true ∧ o.dryRun = false ∧ o.cache = none) ∧
      (∀ place, Enumerated Check.staleDisk o paths place → Check.staleDisk.Vacant (pathOf place)) ∧
      Confined Check.staleDisk o paths (run Check.staleDisk o paths).2 := by
  intro o paths
  have hcollect : Enumerate.collect Check.staleDisk o paths = .ok paths := by decide +kernel
  have hfiles : Enumerate.enumerate Check.staleDisk o paths = .ok paths := by
    rw [Enumerate.enumerate, hcollect, Except.map, List.mergeSort_of_pairwise (by decide)]
    rfl
  have hcanonical : ∀ f ∈ paths,
      Check.staleDisk.canonical f = .ok f ∧ Check.staleDisk.Vacant f := by
    decide +kernel
  have hv : ∀ place, Enumerated Check.staleDisk o paths place →
      Check.staleDisk.Vacant (pathOf place) := by
    rintro place ⟨files, hfiles', f, hf, q, hq, htext⟩
    obtain rfl : paths = files := Except.ok.inj (hfiles.symm.trans hfiles')
    obtain ⟨hf', hvacant⟩ := hcanonical f hf
    obtain rfl := Except.ok.inj (hf'.symm.trans hq)
    rw [pathOf, ← htext, Path.ofText_text]
    exact hvacant
  have hvalid : o.Valid := ⟨{ Config.empty with autoFix? := some true }, by rfl⟩
  exact ⟨⟨Check.staleDisk_wellFormed, hvalid, rfl⟩, ⟨rfl, rfl, rfl⟩, hv,
    confined_run Check.staleDisk_wellFormed hvalid rfl rfl rfl rfl hv⟩

/-- A file bears the name of the neighbour of `/b`. -/
def litteredDisk : Disk :=
  Check.staleDisk.set [".b.0.tmp"] (.file (encode "old\n") 0o644#12)

/-- A link to another file bears that name. -/
def divertedDisk : Disk :=
  (Check.staleDisk.set [".b.0.tmp"] (.link "c")).set ["c"] (.file (encode "old\n") 0o644#12)

/-- A run takes away a file that bears the name of the neighbour of a file that it repairs, and what
a link of that name leads to gets the repaired content. -/
theorem spilt_litteredDisk :
    let o : Options := { Options.standard with autoFix := true }
    let old := Entry.file (encode "old\n") 0o644#12
    let repaired := encode "# sync-start:m 8343824688036161609 a\ny\n# sync-end:m\n"
    ((litteredDisk.WellFormed ∧ divertedDisk.WellFormed) ∧ o.Valid ∧ o.Settled ∧
      o.dryRun = false ∧ o.cache = none) ∧
    (¬Enumerated litteredDisk o [.ofText "/b"] [".b.0.tmp"] ∧
      litteredDisk.entry? [".b.0.tmp"] = some old ∧
      Disk.entry? (run litteredDisk o [.ofText "/b"]).2 [".b.0.tmp"] = none) ∧
    ¬Enumerated divertedDisk o [.ofText "/b"] ["c"] ∧ divertedDisk.entry? ["c"] = some old ∧
      Disk.entry? (run divertedDisk o [.ofText "/b"]).2 ["c"] = some (.file repaired 0o644#12) := by
  intro o old repaired
  have hno : ∀ d : Disk, d.isFile (.ofText "/b") = true →
      d.canonical (.ofText "/b") = .ok (.ofText "/b") →
        ∀ place, placeText place ≠ "/b" → ¬Enumerated d o [.ofText "/b"] place := by
    rintro d hfile hf place hplace ⟨files, hfiles, f, hmem, q, hq, htext⟩
    obtain rfl := Except.ok.inj ((enumerate_of_isFile hfile o).symm.trans hfiles)
    obtain rfl := List.mem_singleton.mp hmem
    obtain rfl := Except.ok.inj (hf.symm.trans hq)
    exact hplace htext.symm
  have hvalid : o.Valid := ⟨{ Config.empty with autoFix? := some true }, by rfl⟩
  refine ⟨⟨⟨?_, ?_⟩, hvalid, rfl, rfl, rfl⟩, ⟨hno _ ?_ ?_ _ ?_, ?_, ?_⟩, hno _ ?_ ?_ _ ?_, ?_, ?_⟩
  · constructor <;> decide
  · constructor <;> decide
  all_goals decide +kernel

end BlockSync.Run
