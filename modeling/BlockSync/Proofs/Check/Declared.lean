import BlockSync.Check
import BlockSync.Proofs.Cache.Problems
import BlockSync.Proofs.Options

/-! What a check reports of one file: the problems that reading it found and what is wrong with its
stored declarations. -/

namespace BlockSync.Check

variable {d : Disk} {o : Options} {cache : Cache} {info : FileInfo}

theorem mem_declarations {x : Declaration} :
    x ∈ declarations info ↔ info.markers.find? x.id = some x.marker ∧
      x.marker.targets.find? x.line = some x.target := by
  simp only [declarations, List.mem_flatMap, List.mem_map, Prod.exists, SortedMap.mem_entries_iff]
  constructor
  · rintro ⟨id, marker, hm, line, target, ht, rfl⟩
    exact ⟨hm, ht⟩
  · rintro ⟨hm, ht⟩
    exact ⟨x.id, x.marker, hm, x.line, x.target, ht, rfl⟩

theorem checkFile_perm : (checkFile o cache info).Perm
    (info.problems.filter (!migrates o info ·) ++
      (declarations info).filterMap (checkDeclaration o cache info)) :=
  List.mergeSort_perm _ _

theorem mem_checkFile {x : Diagnostic} :
    x ∈ checkFile o cache info ↔ x ∈ info.problems ∧ migrates o info x = false ∨
      ∃ y, (info.markers.find? y.id = some y.marker ∧ y.marker.targets.find? y.line = some y.target) ∧
        checkDeclaration o cache info y = some x := by
  simp only [checkFile_perm.mem_iff, List.mem_append, List.mem_filter,
    List.mem_filterMap, mem_declarations, Bool.not_eq_eq_eq_not, Bool.not_true]

theorem checkFile_eq_nil (hp : info.problems = [])
    (hy : (declarations info).filterMap (checkDeclaration o cache info) = []) :
    checkFile o cache info = [] := by
  simp [checkFile, hp, hy]

theorem migrates_of_settled (ho : o.Settled) (x : Diagnostic) : migrates o info x = false := by
  simp only [migrates, ho.resolveTarget]
  cases x.id with
  | none => simp
  | some id =>
    cases info.markers.find? id with
    | none => simp
    | some marker => simp

theorem returnMarker?_eq_some {id path : Text} {marker : Marker} :
    returnMarker? cache info id path = some marker ↔
      ∃ other, cache.find? path = some other ∧ other.markers.find? id = some marker ∧
        ∃ t ∈ marker.targets.values, ∃ name, t.kind = .file name ∧ name ∈ info.aliases := by
  have hany : (marker.targets.values.any fun t => t.kind.path?.any info.isAlias) = true ↔
      ∃ t ∈ marker.targets.values, ∃ name, t.kind = .file name ∧ name ∈ info.aliases := by
    simp only [List.any_eq_true]
    refine exists_congr fun t => and_congr_right fun _ => ?_
    cases t.kind with
    | file name => simp [TargetKind.path?, FileInfo.isAlias]
    | remote url => simp [TargetKind.path?]
  unfold returnMarker?
  split
  next hn => simp [hn]
  next other ho =>
    simp only [ho, Option.some.injEq, exists_eq_left']
    split
    next hn => simp [hn]
    next found hf =>
      simp only [hf, Option.some.injEq]
      constructor
      · intro h
        split at h
        next ha =>
          obtain rfl := Option.some.inj h
          exact ⟨rfl, hany.mp ha⟩
        next => simp at h
      · rintro ⟨rfl, ha⟩
        rw [if_pos (hany.mpr ha)]

theorem checkChecksum_eq_none {s : TagSyntax} {y : Declaration} {expected : Text} :
    checkChecksum s y expected = none ↔ y.recorded = expected := by
  simp [checkChecksum]

theorem checkChecksum_eq_some {s : TagSyntax} {y : Declaration} {expected : Text} {x : Diagnostic} :
    checkChecksum s y expected = some x ↔
      y.recorded ≠ expected ∧ x = mismatchedChecksum s y expected := by
  simp [checkChecksum, eq_comm]

/-- All that can be wrong with a declaration. -/
theorem checkDeclaration_cases {y : Declaration} {x : Diagnostic}
    (h : checkDeclaration o cache info y = some x) :
    (∃ expected, x = mismatchedChecksum o.tagSyntax y expected) ∨
      (∃ moved, x = pendingMigration o.tagSyntax y moved) ∨ x = noReturnTag y := by
  have hchecksum : ∀ {expected}, checkChecksum o.tagSyntax y expected = some x →
      ∃ expected, x = mismatchedChecksum o.tagSyntax y expected :=
    fun h => ⟨_, (checkChecksum_eq_some.mp h).2⟩
  unfold checkDeclaration checkFileTarget at h
  split at h
  next =>
    split at h
    next =>
      split at h
      next => exact .inr (.inl ⟨_, (Option.some.inj h).symm⟩)
      next =>
        split at h
        next => exact .inl (hchecksum h)
        next => exact .inr (.inl ⟨_, (Option.some.inj h).symm⟩)
    next =>
      split at h
      next => exact .inl (hchecksum h)
      next => exact .inr (.inr (Option.some.inj h).symm)
  next => exact .inl (hchecksum h)

/-- The repair of a declaration replaces its line, which must read as it did. -/
theorem fix_of_checkDeclaration {y : Declaration} {x : Diagnostic} {fix : Fix}
    (h : checkDeclaration o cache info y = some x) (hfix : x.fix = some fix) :
    ∃ text description, fix = .replace y.line text description y.target.declaration := by
  obtain ⟨expected, rfl⟩ | ⟨moved, rfl⟩ | rfl := checkDeclaration_cases h
  · obtain ⟨text, -, rfl⟩ := Option.map_eq_some_iff.mp hfix
    exact ⟨text, _, rfl⟩
  · obtain ⟨text, -, rfl⟩ := Option.map_eq_some_iff.mp hfix
    exact ⟨text, _, rfl⟩
  · simp [noReturnTag, Diagnostic.onLine] at hfix

theorem checkFileTarget_of_settled (ho : o.Settled) (y : Declaration) (path : Text) :
    checkFileTarget o cache info y path =
      match returnMarker? cache info y.id path with
      | some other => checkChecksum o.tagSyntax y other.contentChecksum
      | none => some (noReturnTag y) := by
  cases hr : returnMarker? cache info y.id path with
  | none => simp only [checkFileTarget, ho.resolveTarget, hr]
  | some other => simp only [checkFileTarget, ho.resolveTarget, hr]

end BlockSync.Check
