import BlockSync.Proofs.Check.Findings
import BlockSync.Proofs.Check.Repaired

/-! Reports of files that can be read. If all that is reported of a file can be repaired, then the
file was read to its end, and all of its fixes apply. -/

namespace BlockSync.Check

open Cache (Records build keyOf)
open Disk (placeText)
open Repair (Applicable)

variable {d : Disk} {o : Options} {files : List Path} {r : FileReport} {q : Path}
  {info : FileInfo} {lines : List Line}

/-- The report is of a file under its path without links, which was read to its end. -/
structure Legible (d : Disk) (o : Options) (files : List Path) (r : FileReport) (q : Path)
    (info : FileInfo) (lines : List Line) : Prop where
  found : (build d o files).find? q.text = some info
  report_eq : r = ⟨q.text, checkFile o (build d o files) info⟩
  canonical : d.canonical q = .ok q
  records : Records d o q lines info

theorem exists_legible (hd : d.WellFormed) (hr : r ∈ check o (build d o files))
    (hf : r.fixable = true) :
    ∃ q info lines, Legible d o files r q info lines ∧ Fixable o (build d o files) info ∧
      ∃ f ∈ files, d.canonical f = .ok q := by
  obtain ⟨info, hk, hw, he⟩ := mem_check.mp hr
  have hfix : Fixable o (build d o files) info := by
    rw [he, FileReport.fixable] at hf
    exact List.all_eq_true.mp hf
  have hparsed : ∀ reason, Diagnostic.couldNotParse reason ∉ info.problems := by
    intro reason hx
    exact Bool.false_ne_true (hfix.isFixable_of_present hx nofun)
  obtain ⟨f, hm, hpath⟩ := (Cache.writable_build hd).mp ⟨info, hk, hw⟩
  rw [hpath] at hk he
  obtain ⟨q, lines, hc, hl⟩ := Cache.exists_lines hd hk hparsed
  rw [Cache.keyOf_of_ok hc] at hk he
  have hq := hd.canonical_canonical hc
  have hself : d.canonical (.ofText q.text) = .ok q := by rw [Path.ofText_text, hq]
  have hrecords := (Cache.grouped_build hd files).records hd hk hself hl
  exact ⟨q, info, lines, ⟨hk, he, hq, hrecords⟩, hfix, f, hm, hc⟩

namespace Legible

theorem path_eq (h : Legible d o files r q info lines) : r.path = q.text := by
  rw [h.report_eq]

theorem recordable (hd : d.WellFormed) (h : Legible d o files r q info lines) (id : Text)
    (kind : TargetKind) : Checksum.Recordable (expected (build d o files) info id kind) :=
  recordable_expected hd h.found id kind

theorem exists_applicable (hd : d.WellFormed) (h : Legible d o files r q info lines) :
    ∃ place bytes mode, d.find q.text = .ok (place, .file bytes mode) ∧
      Applicable d r place lines := by
  obtain ⟨place, e, hfind, hq⟩ := Disk.canonical_eq_ok_iff.mp h.canonical
  have he := Disk.entry?_of_find hfind
  have htext : q.text = placeText place := by rw [hq, hd.text_ofText_placeText he]
  obtain ⟨bytes, mode, rfl⟩ : ∃ bytes mode, e = .file bytes mode := by
    have hfile := Disk.isFile_of_lines h.records.lines_eq
    cases e with
    | file bytes mode => exact ⟨bytes, mode, rfl⟩
    | link target => simp [Disk.isFile, hfind] at hfile
    | directory => simp [Disk.isFile, hfind] at hfile
  refine ⟨place, bytes, mode, hfind, h.path_eq.trans htext, ⟨bytes, mode, he⟩, ?_, ?_⟩
  · rw [h.path_eq, Path.ofText_text, h.records.lines_eq]
  · rw [h.report_eq, applied_eq h.records]

end Legible

theorem exists_applicable_of_mem_check (hd : d.WellFormed) (hr : r ∈ check o (build d o files))
    (hf : r.fixable = true) : ∃ place lines, Applicable d r place lines := by
  obtain ⟨q, info, lines, h, -⟩ := exists_legible hd hr hf
  obtain ⟨place, -, -, -, happly⟩ := h.exists_applicable hd
  exact ⟨place, lines, happly⟩

end BlockSync.Check
