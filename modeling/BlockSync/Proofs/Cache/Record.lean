import BlockSync.Proofs.Cache.Kept
import BlockSync.Proofs.Text.Line

/-! What the cache records of a file that can be read. Unless a block is open at the end or declared
twice, each start line of the file is a stored declaration, and each stored declaration is a start
line. -/

namespace BlockSync.Cache

open Block (Closed Matches completed reads targetOf)
open Scan (eventsOf markersOf markerOf problemsOf settingOf)

variable {d : Disk} {o : Options} {path : Path} {lines : List Line} {info : FileInfo}

/-- What the references of a file mean. -/
def resolverOf (d : Disk) (o : Options) (path : Path) : Text → Resolved :=
  Scan.resolveTarget d (Scan.findRoot d path o.rootMarker)

structure Records (d : Disk) (o : Options) (path : Path) (lines : List Line) (info : FileInfo) :
    Prop where
  lines_eq : d.lines path = .ok (lines, none)
  problems_eq : info.problems = problemsOf d (settingOf d o path) [] (eventsOf d o path lines)
  markers_eq : info.markers = markersOf (settingOf d o path) (completed (eventsOf d o path lines))

theorem Grouped.records (hd : d.WellFormed) {c : Cache} (h : Grouped d o c) {k : Text}
    (hk : c.find? k = some info) (hq : d.canonical (.ofText k) = .ok path)
    (hl : d.lines path = .ok (lines, none)) : Records d o path lines info where
  lines_eq := hl
  problems_eq := by rw [h.problems_eq hd hk hq, Scan.scan_info_of_lines hl]
  markers_eq := by rw [h.markers_eq hd hk hq, Scan.scan_info_of_lines hl]

/-- A requested file that could be parsed leads to a file that can be read. -/
theorem exists_lines (hd : d.WellFormed) {files : List Path} {f : Path}
    (hk : (build d o files).find? (keyOf d f) = some info)
    (hp : ∀ reason, Diagnostic.couldNotParse reason ∉ info.problems) :
    ∃ a lines, d.canonical f = .ok a ∧ d.lines a = .ok (lines, none) := by
  have hg := grouped_build (o := o) hd files
  cases hc : d.canonical f with
  | error cause =>
    rw [keyOf_of_error hc] at hk
    obtain ⟨readOnly, rfl⟩ := hg.unresolved hk (by rwa [Path.ofText_text])
    exact absurd (List.mem_singleton_self _) (hp _)
  | ok a =>
    rw [keyOf_of_ok hc] at hk
    have hself : d.canonical (.ofText a.text) = .ok a := by
      rw [Path.ofText_text, hd.canonical_canonical hc]
    rw [hg.problems_eq hd hk hself] at hp
    rcases hl : d.lines a with cause | ⟨lines, cause | cause⟩
    · simp only [Scan.scan, hl, Scan.unreadable, List.mem_singleton] at hp
      exact absurd rfl (hp _)
    · exact ⟨a, lines, rfl, hl⟩
    · simp only [Scan.scan, hl, Scan.unreadable, List.mem_singleton] at hp
      exact absurd rfl (hp _)

theorem Grouped.exists_markerOf (hd : d.WellFormed) {c : Cache} (h : Grouped d o c) {k : Text}
    (hk : c.find? k = some info) {id : Text} {marker : Marker}
    (hm : info.markers.find? id = some marker) : ∃ relative b, marker = markerOf relative b := by
  cases hc : d.canonical (.ofText k) with
  | error cause =>
    obtain ⟨readOnly, rfl⟩ := h.unresolved hk hc
    simp [unresolvable, FileInfo.new] at hm
  | ok q =>
    rw [h.markers_eq hd hk hc, Scan.find?_scan_markers] at hm
    obtain ⟨b, -, rfl⟩ := Option.map_eq_some_iff.mp hm
    exact ⟨_, b, rfl⟩

namespace Records

theorem reads_raw (h : Records d o path lines info) {line : Line} (hl : line ∈ lines) :
    reads o.tagSyntax line.raw = o.tagSyntax.classify line.text := by
  rw [reads, Disk.ofRaw_raw_of_lines h.lines_eq hl]

theorem find?_markers (h : Records d o path lines info) (id : Text) :
    info.markers.find? id = (Scan.kept? (completed (eventsOf d o path lines)) id).map
      (markerOf (settingOf d o path).relative) := by
  rw [h.markers_eq, Scan.find?_markersOf]

theorem exists_start (h : Records d o path lines info) {id : Text} {marker : Marker}
    (hm : info.markers.find? id = some marker) {n : Nat} {t : Target}
    (ht : marker.targets.find? n = some t) :
    ∃ i line tag, n = i + 1 ∧ lines[i]? = some line ∧
      o.tagSyntax.classify line.text = .start tag ∧ tag.id = id ∧
      t = targetOf (resolverOf d o path) tag line.raw := by
  obtain ⟨b, hb, rfl⟩ := Option.map_eq_some_iff.mp ((h.find?_markers id).symm.trans hm)
  obtain ⟨hmem, hid⟩ := Scan.mem_of_kept? hb
  obtain ⟨i, raw, tag, hn, hi, hr, htag, rfl⟩ := Block.exists_start_of_mem_events hmem ht
  rw [List.getElem?_map] at hi
  obtain ⟨line, hline, rfl⟩ := Option.map_eq_some_iff.mp hi
  rw [h.reads_raw (List.mem_of_getElem? hline)] at hr
  exact ⟨i, line, tag, hn, hline, hr, htag.trans hid, rfl⟩

/-- A start line is a stored declaration of the closed block that it lies in. -/
theorem exists_block (h : Records d o path lines info)
    (hopen : ∀ n id, Diagnostic.startTagWithoutEndTag n id ∉ info.problems)
    (hdup : ∀ n id, Diagnostic.duplicateMarker n id ∉ info.problems) {i : Nat} {line : Line}
    {tag : Tag.Start} (hi : lines[i]? = some line)
    (hc : o.tagSyntax.classify line.text = .start tag) :
    ∃ first last b,
      Matches o.tagSyntax (resolverOf d o path) (lines.map Line.raw) first last b ∧
      first ≤ i ∧ i < last ∧ b.id = tag.id ∧ b ∈ completed (eventsOf d o path lines) ∧
      info.markers.find? tag.id = some (markerOf (settingOf d o path).relative b) ∧
      b.targets.find? (i + 1) = some (targetOf (resolverOf d o path) tag line.raw) := by
  have hraw : (lines.map Line.raw)[i]? = some line.raw := by rw [List.getElem?_map, hi]; rfl
  have hread : reads o.tagSyntax line.raw = .start tag := by
    rw [h.reads_raw (List.mem_of_getElem? hi), hc]
  -- nothing is left open, since that would be reported
  have hspan : Block.span o.tagSyntax tag.id (lines.map Line.raw) = [] := by
    by_contra ho
    obtain ⟨n, hn⟩ := Block.problem_of_span (resolverOf d o path) ho
    exact hopen n tag.id (h.problems_eq ▸ Scan.mem_problemsOf.mpr (.inl hn))
  have hstart : Block.StartsAt o.tagSyntax (lines.map Line.raw) tag.id i :=
    ⟨line.raw, hraw, Block.starts_iff.mpr ⟨tag, hread, rfl⟩⟩
  obtain ⟨first, last, hclosed, hfi, hil⟩ :=
    Block.exists_closed_of_start hstart (Block.span_eq_nil_iff.mp hspan i hstart)
  obtain ⟨b, hb, hid, hmatch⟩ := hclosed.exists_matches (resolverOf d o path)
  rw [h.problems_eq] at hdup
  have hkept : Scan.kept? (completed (eventsOf d o path lines)) tag.id = some b :=
    hid ▸ Scan.kept?_of_no_duplicate hdup hb hmatch.targets_ne_empty
  exact ⟨first, last, b, hmatch, hfi, hil, hid, hb, by rw [h.find?_markers, hkept]; rfl,
    (hmatch.find?_targets _ _).mpr ⟨i, line.raw, tag, rfl, hfi, hil, hraw, hread, hid.symm, rfl⟩⟩

end Records

end BlockSync.Cache
