import BlockSync.Proofs.Check.Legible
import Mathlib.Data.List.Nodup

/-! One round of repairs is enough. If all findings in some files can be repaired and are, then
nothing is found in these files any more, and what is found in the others stays as it is. -/

namespace BlockSync.Check

open Cache (Records Writable build keyOf resolverOf)
open Disk (placeText)
open Repair (Applicable applyAll longName repaired)

variable {d : Disk} {o : Options} {files : List Path}

/-- No target that a requested file declares looks like the end of a comment. -/
def Unmistakable (d : Disk) (o : Options) (files : List Path) : Prop :=
  ∀ f ∈ files, ∀ lines, d.lines f = .ok (lines, none) → Distinct o.tagSyntax lines

/-- Different reports of a check, each with findings that can all be repaired. -/
structure Chosen (d : Disk) (o : Options) (files : List Path) (reports : List FileReport) :
    Prop where
  nodup : reports.Nodup
  reported : ∀ r ∈ reports, r ∈ check o (build d o files)
  fixable : ∀ r ∈ reports, r.fixable = true

/-- All reports with findings that can all be repaired, in any order. -/
theorem chosen_of_perm {reports : List FileReport}
    (h : reports.Perm ((check o (build d o files)).filter FileReport.fixable)) :
    Chosen d o files reports where
  nodup := h.nodup_iff.mpr (nodup_check.filter _)
  reported _ hr := (List.mem_filter.mp (h.mem_iff.mp hr)).1
  fixable _ hr := (List.mem_filter.mp (h.mem_iff.mp hr)).2

theorem Chosen.filter {reports : List FileReport} (h : Chosen d o files reports)
    (keep : FileReport → Bool) : Chosen d o files (reports.filter keep) where
  nodup := h.nodup.filter keep
  reported r hr := h.reported r (List.mem_of_mem_filter hr)
  fixable r hr := h.fixable r (List.mem_of_mem_filter hr)

/-- What is known of a file all of whose findings can be repaired. -/
structure Repairable (d : Disk) (o : Options) (files : List Path) (r : FileReport) (q : Path)
    (info : FileInfo) (lines : List Line) : Prop where
  found : (build d o files).find? q.text = some info
  report_eq : r = ⟨q.text, checkFile o (build d o files) info⟩
  fixable : Fixable o (build d o files) info
  canonical : d.canonical q = .ok q
  records : Records d o q lines info
  distinct : Distinct o.tagSyntax lines

theorem Chosen.exists_repairable (hd : d.WellFormed) (hu : Unmistakable d o files)
    {reports : List FileReport} (hc : Chosen d o files reports) {r : FileReport}
    (hr : r ∈ reports) : ∃ q info lines, Repairable d o files r q info lines := by
  obtain ⟨q, info, lines, h, hfix, f, hf, hcanonical⟩ :=
    exists_legible hd (hc.reported r hr) (hc.fixable r hr)
  have hlines : d.lines f = .ok (lines, none) := hd.lines_canonical hcanonical ▸ h.records.lines_eq
  exact ⟨q, info, lines, h.found, h.report_eq, hfix, h.canonical, h.records, hu f hf lines hlines⟩

namespace Repairable

variable {r : FileReport} {q : Path} {info : FileInfo} {lines : List Line}

theorem path_eq (h : Repairable d o files r q info lines) : r.path = q.text := by
  rw [h.report_eq]

theorem legible (h : Repairable d o files r q info lines) : Legible d o files r q info lines :=
  ⟨h.found, h.report_eq, h.canonical, h.records⟩

end Repairable

theorem Chosen.nodup_paths {reports : List FileReport} (hc : Chosen d o files reports) :
    (reports.map FileReport.path).Nodup := by
  refine hc.nodup.map_on fun r hr r' hr' he => ?_
  obtain ⟨info, hk, -, heq⟩ := mem_check.mp (hc.reported r hr)
  obtain ⟨info', hk', -, heq'⟩ := mem_check.mp (hc.reported r' hr')
  rw [he, hk'] at hk
  rw [heq, heq', he, Option.some.inj hk]

variable {reports : List FileReport}

theorem Chosen.repaired_eq (hs : o.Settled) (hc : Chosen d o files reports) {r : FileReport}
    (hr : r ∈ reports) {q : Path} {info : FileInfo} {lines : List Line}
    (h : Legible d o files r q info lines) (hfix : Fixable o (build d o files) info)
    {place : Place} (happly : Applicable d r place lines) :
    repaired d reports place = some (Text.Utf8.encode
      ((repairedLines d o (build d o files) q info lines).flatMap Line.raw)) := by
  have houtput : (Repair.rewrite lines r.fixes).output =
      (repairedLines d o (build d o files) q info lines).flatMap Line.raw := by
    rw [h.report_eq, hfix.rewrite_eq hs h.records]
  rw [Repair.repaired_of_mem hc.nodup_paths hr happly, houtput]

theorem Repairable.lines_eq (hd : d.WellFormed) (hs : o.Settled) (hc : Chosen d o files reports)
    {r : FileReport} (hr : r ∈ reports) {q : Path} {info : FileInfo} {lines : List Line}
    (h : Repairable d o files r q info lines) :
    (d.revised (repaired d reports)).lines q =
      .ok (repairedLines d o (build d o files) q info lines, none) := by
  obtain ⟨place, bytes, mode, hfind, happly⟩ := h.legible.exists_applicable hd
  have hcut := cut_repairedLines h.records (h.legible.recordable hd)
  rw [Disk.lines_revised hfind, hc.repaired_eq hs hr h.legible h.fixable happly, Option.getD_some,
    hcut.read_encode]
  rfl

theorem lines_of_not_chosen (hd : d.WellFormed) {p q : Path} (hq : d.canonical p = .ok q)
    (hr : ∀ r ∈ reports, r.path ≠ q.text) :
    (d.revised (repaired d reports)).lines q = d.lines q := by
  refine Disk.lines_revised_of_none fun place e hfind => Repair.repaired_eq_none fun r hm => ?_
  obtain ⟨place', e', hfind', rfl⟩ := Disk.canonical_eq_ok_iff.mp (hd.canonical_canonical hq)
  obtain ⟨rfl, -⟩ := Prod.mk.inj (Except.ok.inj (hfind.symm.trans hfind'))
  rw [← hd.text_ofText_placeText (Disk.entry?_of_find hfind)]
  exact hr r hm

theorem Chosen.sameBlocks (hd : d.WellFormed) (ho : o.Valid) (hs : o.Settled)
    (hu : Unmistakable d o files) (hc : Chosen d o files reports) :
    Cache.SameBlocks d o (repaired d reports) := by
  intro p q hq
  by_cases hr : ∃ r ∈ reports, r.path = q.text
  · obtain ⟨r, hr, hpath⟩ := hr
    obtain ⟨q', info, lines, h⟩ := hc.exists_repairable hd hu hr
    obtain rfl : q' = q := Path.eq_of_text (h.path_eq.symm.trans hpath)
    have hev := h.fixable.revisesEvents ho hs h.records (h.legible.recordable hd) h.distinct
    rw [Scan.blocksOf_of_lines h.records.lines_eq, Scan.blocksOf_of_lines (h.lines_eq hd hs hc hr),
      Scan.eventsOf_revised]
    exact hev.completed.imp fun _ _ hb => hb.echoes
  · have hlines := lines_of_not_chosen hd hq fun r hm he => hr ⟨r, hm, he⟩
    rw [Scan.blocksOf_revised hlines]
    exact List.forall₂_same.mpr fun b _ => .refl b

theorem checkFile_of_chosen (hd : d.WellFormed) (ho : o.Valid) (hs : o.Settled)
    (hu : Unmistakable d o files) (hc : Chosen d o files reports) {r : FileReport}
    (hr : r ∈ reports) {info' : FileInfo}
    (hk' : (build (d.revised (repaired d reports)) o files).find? r.path = some info') :
    checkFile o (build (d.revised (repaired d reports)) o files) info' = [] := by
  have hd' := hd.revised (repaired d reports)
  have hecho := (hc.sameBlocks hd ho hs hu).echoes_build hd files
  obtain ⟨q, info, lines, h⟩ := hc.exists_repairable hd hu hr
  rw [h.path_eq] at hk'
  have hq : (d.revised (repaired d reports)).canonical (.ofText q.text) = .ok q := by
    rw [Disk.canonical_revised, Path.ofText_text, h.canonical]
  have hrecords := (Cache.grouped_build hd' files).records hd' hk' hq (h.lines_eq hd hs hc hr)
  have hinfo := hecho q.text
  rw [h.found, hk'] at hinfo
  cases hinfo with
  | some hi =>
    exact h.fixable.checkFile_repaired ho hs h.records (h.legible.recordable hd) h.distinct hrecords hecho hi

theorem checkFile_of_not_chosen (hd : d.WellFormed) (ho : o.Valid) (hs : o.Settled)
    (hu : Unmistakable d o files) (hc : Chosen d o files reports) {k : Text}
    (hr : ∀ r ∈ reports, r.path ≠ k) {info info' : FileInfo}
    (hk : (build d o files).find? k = some info) (hw : info.readOnly = false)
    (hk' : (build (d.revised (repaired d reports)) o files).find? k = some info')
    (hw' : info'.readOnly = false) :
    checkFile o (build (d.revised (repaired d reports)) o files) info' =
      checkFile o (build d o files) info := by
  have hd' := hd.revised (repaired d reports)
  have hecho := (hc.sameBlocks hd ho hs hu).echoes_build hd files
  have hg := Cache.grouped_build (o := o) hd files
  have hg' := Cache.grouped_build (o := o) hd' files
  have hinfo := hecho k
  rw [hk, hk'] at hinfo
  cases hinfo with
  | some hi =>
    cases hq : d.canonical (.ofText k) with
    | error cause =>
      have hq' := (Disk.canonical_revised d (repaired d reports) (.ofText k)).trans hq
      obtain ⟨readOnly, rfl⟩ := hg.unresolved hk hq
      obtain ⟨readOnly', rfl⟩ := hg'.unresolved hk' hq'
      exact checkFile_echo hs hecho hi rfl rfl
    | ok q =>
      have hq' := (Disk.canonical_revised d (repaired d reports) (.ofText k)).trans hq
      obtain ⟨p, -, q', hp, rfl⟩ := Cache.canonical_of_writable hd ⟨info, hk, hw⟩ ⟨q, hq⟩
      obtain rfl : q' = q := by
        rw [Path.ofText_text, hd.canonical_canonical hp] at hq
        exact Except.ok.inj hq
      have hscan := Scan.scan_revised (o := o) d (repaired d reports)
        (lines_of_not_chosen hd hq hr)
      refine checkFile_echo hs hecho hi ?_ ?_
      · rw [hg.problems_eq hd hk hq, hg'.problems_eq hd' hk' hq', hscan]
      · rw [hg.markers_eq hd hk hq, hg'.markers_eq hd' hk' hq', hscan]

/-- After repairs of some files, nothing is found in these, and what is found in the others is what
was found before. -/
theorem findings_repaired (hd : d.WellFormed) (ho : o.Valid) (hs : o.Settled)
    (hu : Unmistakable d o files) (hc : Chosen d o files reports) :
    findings o (build (d.revised (repaired d reports)) o files) =
      (findings o (build d o files)).map fun k found =>
        if FileReport.mk k found ∈ reports then [] else found := by
  have hd' := hd.revised (repaired d reports)
  refine SortedMap.ext_find? fun k => ?_
  rw [SortedMap.find?_map]
  have hw : Writable (build (d.revised (repaired d reports)) o files) k ↔
      Writable (build d o files) k := by
    rw [Cache.writable_build hd', Cache.writable_build hd]
    simp only [Cache.keyOf_revised]
  rw [writable_iff_findings (o := o), writable_iff_findings (o := o)] at hw
  cases hfound : (findings o (build d o files)).find? k with
  | none =>
    rw [hfound] at hw
    have hno : ¬∃ found, (none : Option (List Diagnostic)) = some found := by simp
    exact Option.eq_none_iff_forall_ne_some.mpr fun found h => hno (hw.mp ⟨found, h⟩)
  | some found =>
    obtain ⟨found', hfound'⟩ := hw.mpr ⟨found, hfound⟩
    obtain ⟨info, hk, hwritable, rfl⟩ := find?_findings_eq_some.mp hfound
    obtain ⟨info', hk', hwritable', rfl⟩ := find?_findings_eq_some.mp hfound'
    rw [hfound', Option.map_some]
    split
    next hr => rw [checkFile_of_chosen hd ho hs hu hc hr hk']
    next hr =>
      rw [checkFile_of_not_chosen hd ho hs hu hc (fun r hm he => hr ?_) hk hwritable hk' hwritable']
      obtain ⟨other, hother, -, heq⟩ := mem_check.mp (hc.reported r hm)
      rw [he, hk] at hother
      rw [heq, he, ← Option.some.inj hother] at hm
      exact hm

/-- If all findings in some files can be repaired, then repairing them succeeds, in whatever order,
as long as nothing bears the names of their temporary neighbours, and these are not too long. A
check then finds nothing in these files, and in the others what it found before. -/
theorem exists_converged (hd : d.WellFormed) (ho : o.Valid) (hs : o.Settled)
    (hu : Unmistakable d o files) (hc : Chosen d o files reports)
    (hroom : ∀ r ∈ reports, d.Vacant (.ofText r.path) ∧ d.Fits (.ofText r.path)) :
    ∃ d', applyAll d reports = .ok d' ∧
      check o (build d' o files) = (check o (build d o files)).map fun r =>
        if r ∈ reports then ⟨r.path, []⟩ else r := by
  refine ⟨_, Repair.applyAll_eq hd (fun r hr => ?_) hroom hc.nodup_paths, ?_⟩
  · obtain ⟨q, info, lines, h⟩ := hc.exists_repairable hd hu hr
    obtain ⟨place, -, -, -, happly⟩ := h.legible.exists_applicable hd
    exact ⟨place, lines, happly⟩
  · rw [check_eq, check_eq, findings_repaired hd ho hs hu hc, List.map_map]
    simp only [SortedMap.map, List.map_map]
    refine List.map_congr_left fun e _ => ?_
    simp only [Function.comp_apply]
    split <;> rfl

/-- Two files that point at each other. One repeats its target, and the other one's checksum is out
of date. -/
def staleDisk : Disk :=
  (Disk.bare.set ["a"] (.file (Text.Utf8.encode
    "# sync-start:m b\n# sync-start:m ./b\nx\n# sync-end:m\n") 0o644#12)).set ["b"]
    (.file (Text.Utf8.encode "# sync-start:m 17 a\ny\n# sync-end:m\n") 0o644#12)

theorem staleDisk_wellFormed : staleDisk.WellFormed := by
  constructor <;> decide

theorem unmistakable_of_all (h : files.all (fun f => (d.lines f).toOption.all fun reading =>
    decide (Distinct o.tagSyntax reading.1)) = true) : Unmistakable d o files := by
  intro f hf lines hl
  have hdistinct := List.all_eq_true.mp h f hf
  rw [hl] at hdistinct
  exact of_decide_eq_true hdistinct

theorem unmistakable_staleDisk : Unmistakable staleDisk .standard [.ofText "/a", .ofText "/b"] :=
  unmistakable_of_all (by decide +kernel)

theorem exists_converged_staleDisk :
    (∃ r ∈ check .standard (build staleDisk .standard [.ofText "/a", .ofText "/b"]),
      r.fixable = true ∧ r.diagnostics ≠ []) ∧
    (∀ r ∈ (check .standard (build staleDisk .standard
        [.ofText "/a", .ofText "/b"])).filter FileReport.fixable,
      staleDisk.Vacant (.ofText r.path) ∧ staleDisk.Fits (.ofText r.path)) ∧
    ∃ d', applyAll staleDisk ((check .standard
        (build staleDisk .standard [.ofText "/a", .ofText "/b"])).filter FileReport.fixable) =
        .ok d' ∧
      check .standard (build d' .standard [.ofText "/a", .ofText "/b"]) =
        (check .standard (build staleDisk .standard [.ofText "/a", .ofText "/b"])).map fun r =>
          if r ∈ (check .standard (build staleDisk .standard
            [.ofText "/a", .ofText "/b"])).filter FileReport.fixable then ⟨r.path, []⟩ else r := by
  have hroom : ∀ r ∈ (check .standard (build staleDisk .standard
      [.ofText "/a", .ofText "/b"])).filter FileReport.fixable,
      staleDisk.Vacant (.ofText r.path) ∧ staleDisk.Fits (.ofText r.path) := by
    have hall : ∀ k ∈ (build staleDisk .standard [.ofText "/a", .ofText "/b"]).keys,
        staleDisk.Vacant (.ofText k) ∧ staleDisk.Fits (.ofText k) := by decide +kernel
    intro r hr
    obtain ⟨info, hk, -⟩ := mem_check.mp (List.mem_of_mem_filter hr)
    exact hall r.path (SortedMap.mem_keys_iff.mpr (by rw [SortedMap.contains, hk]; rfl))
  refine ⟨?_, hroom, exists_converged staleDisk_wellFormed Options.standard_valid
    Options.standard_settled unmistakable_staleDisk (chosen_of_perm (.refl _)) hroom⟩
  have hany : (build staleDisk .standard [.ofText "/a", .ofText "/b"]).writable.any (fun e =>
      let found := e.2.problems.filter (!migrates .standard e.2 ·) ++
        (declarations e.2).filterMap (checkDeclaration .standard
          (build staleDisk .standard [.ofText "/a", .ofText "/b"]) e.2)
      found != [] && found.all Diagnostic.isFixable) = true := by
    decide +kernel
  obtain ⟨e, he, hfound⟩ := List.any_eq_true.mp hany
  obtain ⟨hne, hall⟩ := Bool.and_eq_true_iff.mp hfound
  refine ⟨_, List.mem_map_of_mem he, ?_, fun hnil => ?_⟩
  · exact checkFile_perm.all_eq.trans hall
  · exact bne_iff_ne.mp hne (List.perm_nil.mp (checkFile_perm.symm.trans (.of_eq hnil)))

/-- A directory bears the name of the neighbour of `/b`. -/
def occupiedDisk : Disk :=
  staleDisk.set [".b.0.tmp"] .directory

/-- One of two files that point at each other has too long a name for its neighbour. -/
def crampedDisk : Disk :=
  (Disk.bare.set ["a"] (.file (Text.Utf8.encode
    ("# sync-start:m 17 " ++ longName ++ "\nx\n# sync-end:m\n")) 0o644#12)).set [longName]
    (.file (Text.Utf8.encode "# sync-start:m 17 a\ny\n# sync-end:m\n") 0o644#12)

theorem exists_refused {path : Text} {failure : Failure}
    (h : (check o (build d o files)).any (fun r => r.path == path && r.fixable &&
      (Repair.apply d (.ofText r.path) r.fixes true).1 == .ok 1 &&
      (Repair.apply d (.ofText r.path) r.fixes false).1 == .error failure) = true) :
    ∃ r, Chosen d o files [r] ∧ r.path = path ∧
      (Repair.apply d (.ofText r.path) r.fixes true).1 = .ok 1 ∧
      applyAll d [r] = .error failure := by
  obtain ⟨r, hr, h⟩ := List.any_eq_true.mp h
  simp only [Bool.and_eq_true, beq_iff_eq] at h
  obtain ⟨⟨⟨hpath, hfix⟩, hdry⟩, hreal⟩ := h
  refine ⟨r, ⟨List.nodup_singleton r, ?_, ?_⟩, hpath, hdry, ?_⟩
  · exact fun r' hr' => List.mem_singleton.mp hr' ▸ hr
  · exact fun r' hr' => List.mem_singleton.mp hr' ▸ hfix
  · rw [applyAll]
    rcases hall : Repair.apply d (.ofText r.path) r.fixes false with ⟨failure' | n, d'⟩
    · rw [hall] at hreal
      exact congrArg Except.error (Except.error.inj hreal)
    · simp [hall] at hreal

/-- A file all of whose findings can be repaired is not repaired if its neighbour's name is that of
a directory, or too long. -/
theorem refused_occupiedDisk :
    (Options.standard.Valid ∧ Options.standard.Settled) ∧
    (occupiedDisk.WellFormed ∧ Unmistakable occupiedDisk .standard [.ofText "/b"] ∧
      ∃ r, Chosen occupiedDisk .standard [.ofText "/b"] [r] ∧ r.path = "/b" ∧
        (Repair.apply occupiedDisk (.ofText r.path) r.fixes true).1 = .ok 1 ∧
        applyAll occupiedDisk [r] = .error (.refused ⟨"/.b.0.tmp", .isDirectory⟩)) ∧
    crampedDisk.WellFormed ∧ Unmistakable crampedDisk .standard [.ofText ('/' :: longName)] ∧
      ∃ r, Chosen crampedDisk .standard [.ofText ('/' :: longName)] [r] ∧
        r.path = '/' :: longName ∧
        (Repair.apply crampedDisk (.ofText r.path) r.fixes true).1 = .ok 1 ∧
        applyAll crampedDisk [r] = .error (.refused
          ⟨'/' :: Disk.Writer.temporaryName 0 longName, .nameTooLong⟩) := by
  have hoccupied : occupiedDisk.WellFormed := by constructor <;> decide
  have hcramped : crampedDisk.WellFormed := by constructor <;> decide +kernel
  refine ⟨⟨Options.standard_valid, Options.standard_settled⟩,
    ⟨hoccupied, unmistakable_of_all ?_, exists_refused ?_⟩,
    hcramped, unmistakable_of_all ?_, exists_refused ?_⟩
  all_goals decide +kernel

end BlockSync.Check
