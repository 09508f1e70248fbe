import BlockSync.Proofs.Check.Echo
import BlockSync.Proofs.Checksum

/-! A file after its repairs. Its declarations read as they are meant, so nothing is wrong with its
blocks, and each of them records what is expected of it. -/

namespace BlockSync.Check

open Block (Amends RevisesBlock RevisesEvents Sound amendTarget targetOf)
open Cache (Records resolverOf)
open Checksum (Recordable)
open Tag (isCommentEnd)

variable {d : Disk} {o : Options} {cache cache' : Cache} {info info' : FileInfo} {path : Path}
  {lines : List Line}

theorem recordable_expected (hd : d.WellFormed) {files : List Path} {k : Text}
    (hk : (Cache.build d o files).find? k = some info) (id : Text) (kind : TargetKind) :
    Recordable (expected (Cache.build d o files) info id kind) := by
  have hg := Cache.grouped_build (o := o) hd files
  cases kind with
  | file path =>
    dsimp only [expected]
    cases hreturn : returnMarker? (Cache.build d o files) info id path with
    | none => exact .inl rfl
    | some marker =>
      obtain ⟨other, hother, hm, -⟩ := returnMarker?_eq_some.mp hreturn
      obtain ⟨relative, b, rfl⟩ := hg.exists_markerOf hd hother hm
      exact Checksum.recordable_content b.content
  | remote url =>
    dsimp only [expected]
    cases hm : info.markers.find? id with
    | none => exact .inl rfl
    | some marker =>
      obtain ⟨relative, b, rfl⟩ := hg.exists_markerOf hd hk hm
      exact Checksum.recordable_self b.content relative

theorem solid_written {checksum : Text} (h : Recordable checksum) :
    Text.Solid (written checksum) := by
  unfold written
  split
  next => simp [Text.Solid]
  next hne => exact (h.resolve_left hne).2

theorem recorded_amendTarget {s : TagSyntax} {resolve : Text → Resolved}
    {want : Text → TargetKind → Text} {raw : Text} {tag : Tag.Start}
    (hc : s.classify (Line.ofRaw raw).text = .start tag)
    (hw : Recordable (want tag.id (resolve tag.target).kind)) :
    (amendTarget s (amendment resolve want) (targetOf resolve tag raw)).checksum.getD
      Checksum.absent = want tag.id (resolve tag.target).kind := by
  have hdecl : (targetOf resolve tag raw).declaration = (Line.ofRaw raw).text := rfl
  by_cases he : tag.checksum.getD Checksum.absent = want tag.id (resolve tag.target).kind
  · have ha : amendment resolve want tag = none := if_pos he
    simp only [amendTarget, hdecl, hc, ha]
    exact he
  · have ha : amendment resolve want tag =
        some (written (want tag.id (resolve tag.target).kind)) := if_neg he
    simp only [amendTarget, hdecl, hc, ha]
    rcases hw with hw | ⟨hne, -⟩
    · simp [written, hw]
    · by_cases hw : want tag.id (resolve tag.target).kind = Checksum.absent
      · simp [written, hw]
      · simp [written, hw, hne]

/-- No target of the lines looks like the end of a comment. -/
def Distinct (s : TagSyntax) (lines : List Line) : Prop :=
  ∀ line ∈ lines, ∀ tag, s.classify line.text = .start tag → isCommentEnd tag.target = false

instance (s : TagSyntax) (lines : List Line) : Decidable (Distinct s lines) :=
  decidable_of_iff
    (lines.all fun line =>
      match s.classify line.text with
      | .start tag => !isCommentEnd tag.target
      | _ => true) (by
    rw [List.all_eq_true]
    refine forall₂_congr fun line _ => ?_
    cases s.classify line.text with
    | start tag => simp
    | _ => simp)

theorem sound (hr : Records d o path lines info)
    (hw : ∀ id kind, Recordable (expected cache info id kind)) :
    ∀ line ∈ lines, Sound o.tagSyntax
      (amendment (resolverOf d o path) (expected cache info)) line := by
  intro line hm
  refine ⟨(Disk.cut_of_lines hr.lines_eq).2 line hm, fun tag hc checksum ha => ?_⟩
  unfold amendment at ha
  dsimp only at ha
  split at ha
  next => simp at ha
  next => exact Option.some.inj ha ▸ solid_written (hw _ _)

theorem amends (hr : Records d o path lines info)
    (hw : ∀ id kind, Recordable (expected cache info id kind)) (hl : Distinct o.tagSyntax lines) :
    ∀ line ∈ lines, Amends o.tagSyntax
      (amendment (resolverOf d o path) (expected cache info)) line := by
  intro line hm
  have hsound := sound hr hw line hm
  exact ⟨hsound.whole, fun tag hc checksum ha =>
    ⟨hsound.solid tag hc checksum ha, fun _ _ => hl line hm tag hc⟩⟩

theorem Fixable.revisesEvents (h : Fixable o cache info) (ho : o.Valid) (hs : o.Settled)
    (hr : Records d o path lines info) (hw : ∀ id kind, Recordable (expected cache info id kind))
    (hl : Distinct o.tagSyntax lines) :
    RevisesEvents o.tagSyntax (amendment (resolverOf d o path) (expected cache info))
      (Scan.eventsOf d o path lines)
      (Scan.eventsOf d o path (repairedLines d o cache path info lines)) :=
  Block.revisesEvents_revise (Options.plain_of_valid ho) (amends hr hw hl) (h.onlyRepeats hs hr)

theorem cut_repairedLines (hr : Records d o path lines info)
    (hw : ∀ id kind, Recordable (expected cache info id kind)) :
    Line.Cut (repairedLines d o cache path info lines) :=
  Block.cut_revise (Disk.cut_of_lines hr.lines_eq) (sound hr hw) _

section

variable {content : Place → Option Text.Utf8.Bytes}

theorem exists_amended (hr : Records d o path lines info)
    (hr' : Records (d.revised content) o path (repairedLines d o cache path info lines) info')
    (hev : RevisesEvents o.tagSyntax (amendment (resolverOf d o path) (expected cache info))
      (Scan.eventsOf d o path lines)
      (Scan.eventsOf d o path (repairedLines d o cache path info lines)))
    {id : Text} {marker' : Marker} (hm' : info'.markers.find? id = some marker') {n' : Nat}
    {t' : Target} (ht' : marker'.targets.find? n' = some t') :
    ∃ marker n t, info.markers.find? id = some marker ∧ marker.targets.find? n = some t ∧
      t' = amendTarget o.tagSyntax (amendment (resolverOf d o path) (expected cache info)) t := by
  rw [hr'.find?_markers, Scan.eventsOf_revised, Scan.settingOf_revised] at hm'
  have hkept := Scan.rel_kept? (fun hb => hb.echoes.restates) hev.completed id
  cases hkept' : Scan.kept? (Block.completed
    (Scan.eventsOf d o path (repairedLines d o cache path info lines))) id with
  | none => simp [hkept'] at hm'
  | some b' =>
    rw [hkept', Option.map_some] at hm'
    obtain rfl := Option.some.inj hm'
    rw [hkept'] at hkept
    have hfind := hr.find?_markers id
    generalize Scan.kept? (Block.completed (Scan.eventsOf d o path lines)) id = kept
      at hkept hfind
    cases hkept with
    | some hrev =>
      next b =>
        have hvalue : t' ∈ b'.targets.values := SortedMap.mem_values_iff.mpr ⟨n', ht'⟩
        rw [hrev.2.values_eq] at hvalue
        obtain ⟨t, ht, rfl⟩ := List.mem_map.mp hvalue
        obtain ⟨n, hn⟩ := SortedMap.mem_values_iff.mp ((Block.firsts_sublist _).subset ht)
        exact ⟨_, n, t, hfind, hn, rfl⟩

theorem Fixable.checkFile_repaired (h : Fixable o cache info) (ho : o.Valid) (hs : o.Settled)
    (hr : Records d o path lines info) (hw : ∀ id kind, Recordable (expected cache info id kind))
    (hl : Distinct o.tagSyntax lines)
    (hr' : Records (d.revised content) o path (repairedLines d o cache path info lines) info')
    (hc : cache.Echoes cache') (hi : info.Echoes info') : checkFile o cache' info' = [] := by
  have hev := h.revisesEvents ho hs hr hw hl
  apply checkFile_eq_nil
  · rw [hr'.problems_eq, Scan.eventsOf_revised, Scan.settingOf_revised]
    refine Scan.problemsOf_echo (hev.completed.imp fun _ _ hb => hb.echoes) hev.clean ?_
    intro again b _ x hx hmem
    have hfix := h.isFixable hs (hr.problems_eq ▸ hmem)
    rw [isFixable_blockProblems hx] at hfix
    simp at hfix
  · refine List.filterMap_eq_nil_iff.mpr fun y' hy' => ?_
    obtain ⟨hm', ht'⟩ := mem_declarations.mp hy'
    obtain ⟨marker, n, t, hm, ht, hamend⟩ := exists_amended hr hr' hev hm' ht'
    obtain ⟨i, line, tag, -, hi', hclass, hid, rfl⟩ := hr.exists_start hm ht
    let y : Declaration := ⟨y'.id, marker, n, targetOf (resolverOf d o path) tag line.raw⟩
    have hkind : y'.target.kind = (resolverOf d o path tag.target).kind := by
      rw [hamend, Block.kind_amendTarget]
      rfl
    have hrecorded : y'.recorded = expected cache' info' y'.id y'.target.kind := by
      rw [expected_echo hc hi, Declaration.recorded, hamend, Block.kind_amendTarget, ← hid]
      refine recorded_amendTarget ?_ (hw _ _)
      rw [Disk.ofRaw_raw_of_lines hr.lines_eq (List.mem_of_getElem? hi'), hclass]
    rw [checkDeclaration_of_return hs hm', checkChecksum_eq_none]
    · exact hrecorded
    · intro file hk
      obtain ⟨other, hother⟩ := h.exists_return hs (y := y) hm ht (hkind.symm.trans hk)
      have hreturn := returnMarker?_echo hc hi y'.id file
      rw [hother] at hreturn
      generalize returnMarker? cache' info' y'.id file = found at hreturn
      cases hreturn with
      | some _ => exact ⟨_, rfl⟩

end

end BlockSync.Check
