import BlockSync.Check
import BlockSync.Proofs.Disk.Revised
import BlockSync.Proofs.Repair.Atomic
import BlockSync.Proofs.Repair.Rewrite

/-! Applying the fixes of reports one after another. Each file whose neighbour can be named gets new
content, and as the files are different ones, what each of them gets does not depend on the
order. -/

namespace BlockSync

namespace Check.FileReport

def fixes (r : FileReport) : List Fix :=
  r.diagnostics.filterMap Diagnostic.fix

/-- Whether all that is wrong can be repaired. -/
def fixable (r : FileReport) : Bool :=
  r.diagnostics.all Diagnostic.isFixable

end Check.FileReport

namespace Repair

open Check (FileReport)
open Disk (Entry placeText)
open Text.Utf8 (Bytes encode)

/-- Repairs the files of some reports, in the order of the reports. -/
def applyAll : Disk → List FileReport → Except Failure Disk
  | d, [] => .ok d
  | d, r :: rest =>
    match apply d (.ofText r.path) r.fixes false with
    | (.error failure, _) => .error failure
    | (.ok _, d) => applyAll d rest

/-- Repairs what can be repaired, in the order of the reports. -/
def applyEach (d : Disk) (reports : List FileReport) : Disk :=
  reports.foldl (fun d r => (apply d (.ofText r.path) r.fixes false).2) d

variable {d : Disk}

/-- The report is of a file that can be read, and all of its fixes apply. -/
structure Applicable (d : Disk) (r : FileReport) (place : Place) (lines : List Line) : Prop where
  path_eq : r.path = placeText place
  file : ∃ bytes mode, d.entry? place = some (.file bytes mode)
  lines_eq : d.lines (.ofText r.path) = .ok (lines, none)
  applied_eq : (rewrite lines r.fixes).applied = r.fixes.length

/-- The new content of the files of some reports. -/
def repaired (d : Disk) (reports : List FileReport) (place : Place) : Option Bytes :=
  (reports.find? (·.path = placeText place)).bind fun r =>
    (d.lines (.ofText r.path)).toOption.map fun reading => encode (rewrite reading.1 r.fixes).output

/-- New content for one place. -/
def contentAt (place : Place) (bytes : Bytes) (other : Place) : Option Bytes :=
  if other = place then some bytes else none

theorem Applicable.find_eq (hd : d.WellFormed) {r : FileReport} {place : Place} {lines : List Line}
    (h : Applicable d r place lines) :
    ∃ bytes mode, d.find (Path.ofText r.path).text = .ok (place, .file bytes mode) := by
  obtain ⟨bytes, mode, he⟩ := h.file
  refine ⟨bytes, mode, ?_⟩
  rw [h.path_eq, hd.text_ofText_placeText he, hd.find_placeText he (by simp)]

theorem Applicable.apply (hd : d.WellFormed) {r : FileReport} {place : Place} {lines : List Line}
    (h : Applicable d r place lines) (hv : d.Vacant (.ofText r.path))
    (hfit : d.Fits (.ofText r.path)) :
    Repair.apply d (.ofText r.path) r.fixes false =
      (.ok r.fixes.length,
        d.revised (contentAt place (encode (rewrite lines r.fixes).output))) := by
  obtain ⟨bytes, mode, hfind⟩ := h.find_eq hd
  have he := Disk.entry?_of_find hfind
  have hspot : d.spot false (Path.ofText r.path).text = .ok (.taken place (.file bytes mode)) := by
    rw [h.path_eq, hd.text_ofText_placeText he, hd.spot_placeText he (by simp)]
  obtain ⟨d', happly, own, old, found, bytes', mode', hown, hfound, rfl, -⟩ :=
    exists_apply_swapped hv hfit h.lines_eq h.applied_eq
  obtain ⟨rfl, -⟩ := Disk.Spot.taken.inj (Except.ok.inj (hspot.symm.trans hown))
  obtain ⟨-, hentry⟩ := Prod.mk.inj (Except.ok.inj (hfind.symm.trans hfound))
  obtain ⟨-, rfl⟩ := Disk.Entry.file.inj hentry
  rw [happly, Disk.set_eq_revised he]
  rfl

theorem Applicable.apply_of_unnamed {r : FileReport} {place : Place} {lines : List Line}
    (h : Applicable d r place lines) (hv : d.Vacant (.ofText r.path))
    (hfit : ¬d.Fits (.ofText r.path)) : (Repair.apply d (.ofText r.path) r.fixes false).2 = d := by
  rw [Repair.apply_of_unnamed hv hfit h.lines_eq]

theorem Applicable.apply_dryRun {r : FileReport} {place : Place} {lines : List Line}
    (h : Applicable d r place lines) :
    Repair.apply d (.ofText r.path) r.fixes true = (.ok r.fixes.length, d) := by
  simp only [Repair.apply, h.lines_eq, h.applied_eq, if_true]

theorem Applicable.revised (hd : d.WellFormed) {content : Place → Option Bytes} {r : FileReport}
    {place : Place} {lines : List Line} (h : Applicable d r place lines)
    (hc : content place = none) : Applicable (d.revised content) r place lines := by
  obtain ⟨bytes, mode, hfind⟩ := h.find_eq hd
  obtain ⟨bytes', mode', he⟩ := h.file
  refine ⟨h.path_eq, ⟨bytes', mode', by simp [Disk.entry?_revised, he, hc]⟩, ?_, h.applied_eq⟩
  rw [Disk.lines_revised_of_none, h.lines_eq]
  intro other e ho
  obtain ⟨rfl, -⟩ := Prod.mk.inj (Except.ok.inj (hfind.symm.trans ho))
  exact hc

theorem Applicable.place_eq (hd : d.WellFormed) {r : FileReport} {place other : Place}
    {lines : List Line} (h : Applicable d r place lines) {e : Entry} (he : d.entry? other = some e)
    (hp : r.path = placeText other) : place = other := by
  obtain ⟨bytes, mode, hfile⟩ := h.file
  have htext : placeText place = placeText other := h.path_eq.symm.trans hp
  exact Disk.placeText_injective (fun n hn => (hd.plain_of_entry hfile hn).1)
    (fun n hn => (hd.plain_of_entry he hn).1) htext

theorem repaired_cons (d : Disk) (r : FileReport) (rest : List FileReport) (place : Place) :
    repaired d (r :: rest) place =
      if r.path = placeText place then
        (d.lines (.ofText r.path)).toOption.map fun reading =>
          encode (rewrite reading.1 r.fixes).output
      else repaired d rest place := by
  unfold repaired
  by_cases h : r.path = placeText place <;> simp [h]

theorem repaired_eq_none {reports : List FileReport} {place : Place}
    (h : ∀ r ∈ reports, r.path ≠ placeText place) : repaired d reports place = none := by
  rw [repaired, List.find?_eq_none.mpr (by simpa using h)]
  rfl

theorem repaired_of_mem {reports : List FileReport} (hn : (reports.map FileReport.path).Nodup)
    {r : FileReport} (hr : r ∈ reports) {place : Place} {lines : List Line}
    (ha : Applicable d r place lines) :
    repaired d reports place = some (encode (rewrite lines r.fixes).output) := by
  induction reports with
  | nil => simp at hr
  | cons first rest ih =>
    rw [List.map_cons, List.nodup_cons] at hn
    rw [repaired_cons]
    rcases List.mem_cons.mp hr with rfl | hr
    · rw [if_pos ha.path_eq, ha.lines_eq]
      rfl
    · have hne : first.path ≠ placeText place := fun he =>
        hn.1 (List.mem_map.mpr ⟨r, hr, ha.path_eq.trans he.symm⟩)
      rw [if_neg hne, ih hn.2 hr]

theorem repaired_congr {d' : Disk} {reports : List FileReport}
    (h : ∀ r ∈ reports, d'.lines (.ofText r.path) = d.lines (.ofText r.path)) (place : Place) :
    repaired d' reports place = repaired d reports place := by
  unfold repaired
  cases hr : reports.find? (·.path = placeText place) with
  | none => rfl
  | some r => simp only [Option.bind_some, h r (List.mem_of_find?_eq_some hr)]

theorem vacant_revised (content : Place → Option Bytes) {p : Path} (hv : d.Vacant p) :
    (d.revised content).Vacant p := by
  intro place e he
  rw [Disk.spot_revised] at he
  cases hs : d.spot false (Disk.Writer.temporaryPath d.stamp p) with
  | error cause =>
    have hs' : d.spot false (Disk.Writer.temporaryPath (d.revised content).stamp p) =
        .error cause := hs
    simp [hs', Except.map] at he
  | ok spot =>
    have hs' : d.spot false (Disk.Writer.temporaryPath (d.revised content).stamp p) = .ok spot := hs
    cases spot with
    | taken other e' => exact hv other e' hs
    | free other => simp [hs', Except.map, Disk.Spot.withContent] at he

/-- New content in one file hinders no repair of another one. -/
theorem Applicable.later (hd : d.WellFormed) {r : FileReport} {place : Place} {lines : List Line}
    (h : Applicable d r place lines) {first : Place} (hne : r.path ≠ placeText first)
    (bytes : Bytes) : Applicable (d.revised (contentAt first bytes)) r place lines := by
  refine h.revised hd (if_neg ?_)
  rintro rfl
  exact hne h.path_eq

/-- Repairing the first file and then the others gives each of them its own new content. -/
theorem Applicable.revised_repaired (hd : d.WellFormed) {r : FileReport} {rest : List FileReport}
    {place : Place} {lines : List Line} (h : Applicable d r place lines)
    (ha : ∀ r' ∈ rest, ∃ place lines, Applicable d r' place lines)
    (hother : ∀ r' ∈ rest, r'.path ≠ placeText place) :
    let d' := d.revised (contentAt place (encode (rewrite lines r.fixes).output))
    d'.revised (repaired d' rest) = d.revised (repaired d (r :: rest)) := by
  intro d'
  have hrepaired : ∀ other, repaired d' rest other = repaired d rest other := by
    refine repaired_congr fun r' hm => ?_
    obtain ⟨place', lines', hr'⟩ := ha r' hm
    rw [hr'.lines_eq, (hr'.later hd (hother r' hm) _).lines_eq]
  have hnone : repaired d rest place = none := repaired_eq_none hother
  have hdisjoint : ∀ other, contentAt place (encode (rewrite lines r.fixes).output) other = none ∨
      repaired d' rest other = none := by
    intro other
    by_cases ho : other = place
    · exact .inr (ho ▸ (hrepaired place).trans hnone)
    · exact .inl (if_neg ho)
  refine (Disk.revised_revised d hdisjoint).trans (Disk.revised_congr fun other e he => ?_)
  rw [repaired_cons, h.path_eq, hrepaired]
  by_cases ho : other = place
  · subst ho
    rw [hnone, if_pos rfl, ← h.path_eq, h.lines_eq]
    exact if_pos rfl
  · have hne : placeText place ≠ placeText other := fun hp =>
      ho (h.place_eq hd he (h.path_eq.trans hp)).symm
    rw [if_neg hne, contentAt, if_neg ho, Option.or_none]

/-- Each file whose neighbour can be named gets its own new content, and if that of all of them can,
then all repairs succeed. -/
theorem applyEach_eq (hd : d.WellFormed) {reports : List FileReport}
    (ha : ∀ r ∈ reports, ∃ place lines, Applicable d r place lines)
    (hv : ∀ r ∈ reports, d.Vacant (.ofText r.path)) (hn : (reports.map FileReport.path).Nodup) :
    applyEach d reports =
        d.revised (repaired d (reports.filter fun r => d.Fits (.ofText r.path))) ∧
      ((∀ r ∈ reports, d.Fits (.ofText r.path)) →
        applyAll d reports = .ok (applyEach d reports)) := by
  induction reports generalizing d with
  | nil => exact ⟨d.revised_none.symm, fun _ => rfl⟩
  | cons r rest ih =>
    obtain ⟨⟨place, lines, hr⟩, ha⟩ := List.forall_mem_cons.mp ha
    obtain ⟨hvfirst, hv⟩ := List.forall_mem_cons.mp hv
    rw [List.map_cons, List.nodup_cons] at hn
    by_cases hfit : d.Fits (.ofText r.path)
    · have hother : ∀ r' ∈ rest, r'.path ≠ placeText place := fun r' hm he =>
        hn.1 (List.mem_map.mpr ⟨r', hm, he.trans hr.path_eq.symm⟩)
      have happly := hr.apply hd hvfirst hfit
      let new := contentAt place (encode (rewrite lines r.fixes).output)
      have hlater : ∀ r' ∈ rest, ∃ place' lines', Applicable (d.revised new) r' place' lines' := by
        intro r' hm
        obtain ⟨place', lines', hr'⟩ := ha r' hm
        exact ⟨place', lines', hr'.later hd (hother r' hm) _⟩
      obtain ⟨hrest, hall⟩ :=
        ih (hd.revised new) hlater (fun r' hm => vacant_revised new (hv r' hm)) hn.2
      have hfirst : applyEach d (r :: rest) = applyEach (d.revised new) rest := by
        rw [applyEach, List.foldl_cons, happly]
        rfl
      refine ⟨?_, fun hfits => ?_⟩
      · rw [hfirst, List.filter_cons_of_pos (by simpa using hfit)]
        exact hrest.trans (hr.revised_repaired hd (fun r' hm => ha r' (List.mem_of_mem_filter hm))
          fun r' hm => hother r' (List.mem_of_mem_filter hm))
      · rw [applyAll, happly, hfirst]
        exact hall (List.forall_mem_cons.mp hfits).2
    · obtain ⟨hrest, -⟩ := ih hd ha hv hn.2
      refine ⟨?_, fun hfits => absurd (hfits r (by simp)) hfit⟩
      rw [applyEach, List.foldl_cons, hr.apply_of_unnamed hvfirst hfit,
        List.filter_cons_of_neg (by simpa using hfit), ← hrest]
      rfl

/-- All repairs succeed, and each file gets its own new content. -/
theorem applyAll_eq (hd : d.WellFormed) {reports : List FileReport}
    (ha : ∀ r ∈ reports, ∃ place lines, Applicable d r place lines)
    (hroom : ∀ r ∈ reports, d.Vacant (.ofText r.path) ∧ d.Fits (.ofText r.path))
    (hn : (reports.map FileReport.path).Nodup) :
    applyAll d reports = .ok (d.revised (repaired d reports)) := by
  obtain ⟨heach, hall⟩ := applyEach_eq hd ha (fun r hr => (hroom r hr).1) hn
  have hfits : (reports.filter fun r => d.Fits (.ofText r.path)) = reports :=
    List.filter_eq_self.mpr fun r hr => by simpa using (hroom r hr).2
  rw [hall fun r hr => (hroom r hr).2, heach, hfits]

end Repair

end BlockSync
