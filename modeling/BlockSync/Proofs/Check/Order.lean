import BlockSync.Proofs.Cache.Coherent
import BlockSync.Proofs.Check.Findings

/-! The order in which files are requested. Two lists of the same files lead to caches that differ
in the order of the names in their entries and in nothing else, and a check finds the same. -/

namespace BlockSync

/-- The same record of a file, with its names in any order. -/
structure FileInfo.Alike (info info' : FileInfo) : Prop where
  aliases_perm : info.aliases.Perm info'.aliases
  rest_eq : { info with aliases := [] } = { info' with aliases := [] }

namespace FileInfo.Alike

variable {info info' : FileInfo}

theorem readOnly_eq (h : Alike info info') : info.readOnly = info'.readOnly :=
  (mk.inj h.rest_eq).1

theorem root_eq (h : Alike info info') : info.root = info'.root :=
  (mk.inj h.rest_eq).2.2.1

theorem markers_eq (h : Alike info info') : info.markers = info'.markers :=
  (mk.inj h.rest_eq).2.2.2.1

theorem problems_eq (h : Alike info info') : info.problems = info'.problems :=
  (mk.inj h.rest_eq).2.2.2.2.1

theorem isAlias_eq (h : Alike info info') : info.isAlias = info'.isAlias := by
  funext name
  have hmem : name ∈ info.aliases ↔ name ∈ info'.aliases := h.aliases_perm.mem_iff
  rw [isAlias, isAlias, Bool.eq_iff_iff, List.contains_iff_mem, List.contains_iff_mem, hmem]

end FileInfo.Alike

namespace Cache

variable {d : Disk} {o : Options} {files files' : List Path}

/-- Caches with the same keys and with alike entries. -/
structure Alike (c c' : Cache) : Prop where
  keys_eq : c.keys = c'.keys
  entries : ∀ k info info', c.find? k = some info → c'.find? k = some info' → info.Alike info'

theorem Alike.rel {c c' : Cache} (h : c.Alike c') (k : Text) :
    Option.Rel FileInfo.Alike (c.find? k) (c'.find? k) := by
  have hcontains : c.contains k = c'.contains k := by
    rw [Bool.eq_iff_iff, ← SortedMap.mem_keys_iff, ← SortedMap.mem_keys_iff, h.keys_eq]
  unfold SortedMap.contains at hcontains
  cases hk : c.find? k with
  | none =>
    have hk' : c'.find? k = none := by simpa [hk] using hcontains
    rw [hk']
    exact .none
  | some info =>
    obtain ⟨info', hk'⟩ : ∃ info', c'.find? k = some info' := by
      simpa [hk, Option.isSome_iff_exists] using hcontains.symm
    rw [hk']
    exact .some (h.entries k info info' hk hk')

theorem referenced_congr (h : ∀ p, p ∈ files ↔ p ∈ files') (r : Path) :
    Referenced d o files r ↔ Referenced d o files' r := by
  simp only [Referenced, h]

theorem writable_of_find {c : Cache} {k : Text} {info : FileInfo} (hk : c.find? k = some info) :
    Writable c k ↔ info.readOnly = false := by
  simp only [Writable, hk, Option.some.injEq, exists_eq_left']

theorem alike_of_find (hd : d.WellFormed) (h : ∀ p, p ∈ files ↔ p ∈ files') {k : Text}
    {info info' : FileInfo} (hk : (build d o files).find? k = some info)
    (hk' : (build d o files').find? k = some info') : info.Alike info' := by
  have hg := grouped_build (o := o) hd files
  have hg' := grouped_build (o := o) hd files'
  have hwritable : Writable (build d o files) k ↔ Writable (build d o files') k := by
    simp only [writable_build hd, h]
  rw [writable_of_find hk, writable_of_find hk'] at hwritable
  have hreadOnly : info.readOnly = info'.readOnly := by
    cases hr : info'.readOnly with
    | false => exact hwritable.mpr hr
    | true => simpa [hr] using hwritable
  cases hq : d.canonical (.ofText k) with
  | error cause =>
    obtain ⟨readOnly, rfl⟩ := hg.unresolved hk hq
    obtain ⟨readOnly', rfl⟩ := hg'.unresolved hk' hq
    obtain rfl : readOnly = readOnly' := hreadOnly
    exact ⟨.refl _, rfl⟩
  | ok q =>
    constructor
    · -- either list names the requested and the referenced files that are this one, each once
      refine (List.perm_ext_iff_of_nodup (hg.nodup_names hd hk hq)
        (hg'.nodup_names hd hk' hq)).mpr fun name => ?_
      rw [hg.mem_names hd hk hq, hg'.mem_names hd hk' hq, contains_build hd, contains_build hd]
      simp only [h, referenced_congr h]
    · rw [hg.eq_scan hd hk hq, hg'.eq_scan hd hk' hq, hreadOnly]

theorem alike_build (hd : d.WellFormed) (o : Options) (h : ∀ p, p ∈ files ↔ p ∈ files') :
    Alike (build d o files) (build d o files') := by
  refine ⟨SortedMap.keys_ext fun k => ?_, fun k info info' hk hk' => alike_of_find hd h hk hk'⟩
  rw [Bool.eq_iff_iff, contains_build hd, contains_build hd]
  simp only [h, referenced_congr h]

end Cache

namespace Check

variable {d : Disk} {o : Options} {files files' : List Path} {cache cache' : Cache}
  {info info' : FileInfo}

theorem returnMarker?_alike (hc : cache.Alike cache') (hi : info.Alike info') (id path : Text) :
    returnMarker? cache info id path = returnMarker? cache' info' id path := by
  have hrel := hc.rel path
  unfold returnMarker?
  rw [hi.isAlias_eq]
  generalize cache.find? path = other, cache'.find? path = other' at hrel
  cases hrel with
  | none => rfl
  | some h => simp only [h.markers_eq]

theorem checkDeclaration_alike (hc : cache.Alike cache') (hi : info.Alike info')
    (y : Declaration) : checkDeclaration o cache info y = checkDeclaration o cache' info' y := by
  cases hk : y.target.kind with
  | remote url => simp only [checkDeclaration, hk]
  | file path =>
    have hr := returnMarker?_alike hc hi y.id path
    simp only [checkDeclaration, hk, checkFileTarget, hi.root_eq, hr]

theorem checkFile_alike (hc : cache.Alike cache') (hi : info.Alike info') :
    checkFile o cache info = checkFile o cache' info' := by
  have hproblems : info.problems.filter (!migrates o info ·) =
      info'.problems.filter (!migrates o info' ·) := by
    simp only [migrates, hi.markers_eq, hi.root_eq, hi.problems_eq]
  have hdeclared : declarations info = declarations info' := by
    simp only [declarations, hi.markers_eq]
  have hchecked : checkDeclaration o cache info = checkDeclaration o cache' info' :=
    funext (checkDeclaration_alike hc hi)
  rw [checkFile, checkFile, hproblems, hdeclared, hchecked]

theorem check_alike (hc : cache.Alike cache') : check o cache = check o cache' := by
  have hfindings : findings o cache = findings o cache' := by
    refine SortedMap.ext_find? fun k => ?_
    have hrel := hc.rel k
    rw [findings, findings, SortedMap.find?_map, SortedMap.find?_map, SortedMap.find?_filter,
      SortedMap.find?_filter]
    generalize cache.find? k = found, cache'.find? k = found' at hrel
    cases hrel with
    | none => rfl
    | some h =>
      rw [Option.filter_some, Option.filter_some, h.readOnly_eq]
      split
      next => rw [Option.map_some, Option.map_some, checkFile_alike hc h]
      next => rfl
  rw [check_eq, check_eq, hfindings]

/-- In whatever order and however often files are requested, the cache is the same up to the order
of names, and so are the reports. -/
theorem build_check_of_mem_iff (hd : d.WellFormed) (o : Options) (h : ∀ p, p ∈ files ↔ p ∈ files') :
    (Cache.build d o files).Alike (Cache.build d o files') ∧
      check o (Cache.build d o files) = check o (Cache.build d o files') := by
  have hc := Cache.alike_build hd o h
  exact ⟨hc, check_alike hc⟩

theorem build_check_of_mem_iff_linkedDisk :
    let files : List Path := [.ofText "l", .ofText "/a", .ofText "gone"]
    let files' : List Path := [.ofText "/a", .ofText "gone", .ofText "/a", .ofText "l"]
    Cache.linkedDisk.WellFormed ∧ (∀ p, p ∈ files ↔ p ∈ files') ∧
      (Cache.build Cache.linkedDisk .standard files).Alike
        (Cache.build Cache.linkedDisk .standard files') ∧
      check .standard (Cache.build Cache.linkedDisk .standard files) =
        check .standard (Cache.build Cache.linkedDisk .standard files') := by
  intro files files'
  have hmem : ∀ p, p ∈ files ↔ p ∈ files' := by
    intro p
    simp only [files, files', List.mem_cons, List.not_mem_nil, or_false]
    tauto
  exact ⟨Cache.linkedDisk_wellFormed, hmem,
    build_check_of_mem_iff Cache.linkedDisk_wellFormed .standard hmem⟩

end Check

end BlockSync
