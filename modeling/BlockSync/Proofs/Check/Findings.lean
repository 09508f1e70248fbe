import BlockSync.Proofs.Cache.Entry
import BlockSync.Proofs.Check.Declared

/-! The reports of a check as a map from the files that may be repaired to what is found in them. -/

namespace BlockSync.Check

open Cache (Writable)

variable {o : Options}

theorem mem_check {cache : Cache} {r : FileReport} :
    r ∈ check o cache ↔ ∃ info, cache.find? r.path = some info ∧ info.readOnly = false ∧
      r = ⟨r.path, checkFile o cache info⟩ := by
  simp only [check, Cache.writable, List.mem_map, List.mem_filter, Bool.not_eq_eq_eq_not,
    Bool.not_true, Prod.exists, SortedMap.mem_entries_iff]
  constructor
  · rintro ⟨k, info, ⟨hk, hw⟩, rfl⟩
    exact ⟨info, hk, hw, rfl⟩
  · rintro ⟨info, hk, hw, hr⟩
    exact ⟨r.path, info, ⟨hk, hw⟩, hr.symm⟩

theorem nodup_check {cache : Cache} : (check o cache).Nodup := by
  have hp : cache.writable.Pairwise fun a b => compare a.1 b.1 = .lt := cache.sorted.filter _
  refine List.pairwise_map.mpr (hp.imp ?_)
  intro a b hab he
  have hpath : a.1 = b.1 := congrArg FileReport.path he
  simp [hpath] at hab

/-- What is found in each file that may be repaired. -/
def findings (o : Options) (cache : Cache) : SortedMap Text (List Diagnostic) :=
  (cache.filter fun _ info => !info.readOnly).map fun _ info => checkFile o cache info

theorem check_eq (o : Options) (cache : Cache) :
    check o cache = (findings o cache).entries.map fun e => ⟨e.1, e.2⟩ := by
  simp only [findings, SortedMap.map, SortedMap.filter, List.map_map]
  rfl

theorem find?_findings_eq_some {cache : Cache} {k : Text} {found : List Diagnostic} :
    (findings o cache).find? k = some found ↔ ∃ info, cache.find? k = some info ∧
      info.readOnly = false ∧ found = checkFile o cache info := by
  rw [findings, SortedMap.find?_map, SortedMap.find?_filter]
  simp only [Option.map_eq_some_iff, Option.filter_eq_some_iff, Bool.not_eq_eq_eq_not,
    Bool.not_true, and_assoc, eq_comm (a := found)]

theorem writable_iff_findings {cache : Cache} {k : Text} :
    Writable cache k ↔ ∃ found, (findings o cache).find? k = some found := by
  simp only [find?_findings_eq_some]
  constructor
  · rintro ⟨info, hk, hw⟩
    exact ⟨_, info, hk, hw, rfl⟩
  · rintro ⟨_, info, hk, hw, -⟩
    exact ⟨info, hk, hw⟩

end BlockSync.Check
