import BlockSync.Proofs.Cache.Echo
import BlockSync.Proofs.Check.Fixable

/-! Checks against caches that echo each other. They expect the same checksums, so a file that reads
as before is reported as before. -/

namespace BlockSync.Check

variable {o : Options} {c c' : Cache} {info info' : FileInfo}

theorem isAlias_echo (hi : info.Echoes info') : info'.isAlias = info.isAlias := by
  funext name
  have hmem := hi.mem_aliases name
  simp only [FileInfo.isAlias, List.contains_eq_mem, hmem]

theorem returnMarker?_echo (hc : c.Echoes c') (hi : info.Echoes info') (id path : Text) :
    Option.Rel Marker.Echoes (returnMarker? c info id path) (returnMarker? c' info' id path) := by
  unfold returnMarker?
  have hother := hc path
  generalize c.find? path = other at hother
  generalize c'.find? path = other' at hother
  cases hother with
  | none => exact .none
  | some hother =>
    dsimp only
    have hmarker := hother.markers id
    generalize SortedMap.find? _ id = marker at hmarker
    generalize SortedMap.find? _ id = marker' at hmarker
    cases hmarker with
    | none => exact .none
    | some hmarker =>
      next marker marker' =>
        have hany : (marker'.targets.values.any fun t => t.kind.path?.any info'.isAlias) =
            marker.targets.values.any fun t => t.kind.path?.any info.isAlias := by
          rw [isAlias_echo hi, Bool.eq_iff_iff, List.any_eq_true, List.any_eq_true]
          exact hmarker.kinds.exists_iff
            (p := fun kind => (kind.path?.any info.isAlias) = true)
        dsimp only
        rw [hany]
        split
        next => exact .some hmarker
        next => exact .none

theorem expected_echo (hc : c.Echoes c') (hi : info.Echoes info') (id : Text) (kind : TargetKind) :
    expected c' info' id kind = expected c info id kind := by
  cases kind with
  | file path =>
    have hmarker := returnMarker?_echo hc hi id path
    simp only [expected]
    generalize returnMarker? c info id path = marker at hmarker
    generalize returnMarker? c' info' id path = marker' at hmarker
    cases hmarker with
    | none => rfl
    | some hm => simp [hm.content_eq]
  | remote url =>
    have hmarker := hi.markers id
    simp only [expected]
    generalize info.markers.find? id = marker at hmarker
    generalize info'.markers.find? id = marker' at hmarker
    cases hmarker with
    | none => rfl
    | some hm => simp [hm.self_eq]

theorem checkDeclaration_echo (ho : o.Settled) (hc : c.Echoes c') (hi : info.Echoes info')
    (y : Declaration) : checkDeclaration o c' info' y = checkDeclaration o c info y := by
  unfold checkDeclaration
  cases y.target.kind with
  | remote url => rfl
  | file path =>
    dsimp only
    rw [checkFileTarget_of_settled ho, checkFileTarget_of_settled ho]
    have hmarker := returnMarker?_echo hc hi y.id path
    generalize returnMarker? c info y.id path = marker at hmarker
    generalize returnMarker? c' info' y.id path = marker' at hmarker
    cases hmarker with
    | none => rfl
    | some hm => simp [hm.content_eq]

theorem checkFile_echo (ho : o.Settled) (hc : c.Echoes c') (hi : info.Echoes info')
    (hp : info'.problems = info.problems) (hm : info'.markers = info.markers) :
    checkFile o c' info' = checkFile o c info := by
  have hcheck : checkDeclaration o c' info' = checkDeclaration o c info := by
    funext y
    exact checkDeclaration_echo ho hc hi y
  have hdecls : declarations info' = declarations info := by rw [declarations, declarations, hm]
  simp only [checkFile, migrates_of_settled ho, hp, hcheck, hdecls]

end BlockSync.Check
