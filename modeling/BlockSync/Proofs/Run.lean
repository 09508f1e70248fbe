import BlockSync.Run

/-! What a run scans, and runs that keep no cache. -/

namespace BlockSync.Run

open Cache (build)

variable {d : Disk} {o : Options}

/-- A run without a cache scans, and settles what a check finds. -/
theorem run_of_uncached (hc : o.cache = none) (paths : List Path) :
    run d o paths =
      match scan? d o paths with
      | .error failure => (.error failure, d)
      | .ok none => (.ok ⟨.noMatchingFiles, .zero, []⟩, d)
      | .ok (some cache) => (.ok (settle d o cache).1, (settle d o cache).2) := by
  have hcache : cache? d o paths = scan? d o paths := by simp only [cache?, hc]
  cases hs : scan? d o paths with
  | error failure => simp only [run, hcache, hs]
  | ok scanned =>
    cases scanned with
    | none => simp only [run, hcache, hs]
    | some cache => simp only [run, hcache, hs, hc]

theorem eq_build_of_scan? {paths : List Path} {cache : Cache}
    (h : scan? d o paths = .ok (some cache)) : ∃ files,
      Enumerate.enumerate d o paths = .ok files ∧ cache = build d o files := by
  unfold scan? at h
  cases he : Enumerate.enumerate d o paths with
  | error failure => simp [he, Except.map] at h
  | ok files =>
    rw [he, Except.map, Except.ok.injEq] at h
    split at h
    next => simp at h
    next => exact ⟨files, rfl, (Option.some.inj h).symm⟩

/-- Which files are scanned, and what is found in them, does not depend on whether they are to be
repaired or on where a cache is kept. -/
theorem collect_settings (d : Disk) (o : Options) (autoFix dryRun : Bool)
    (cache : Option (Path × CacheMode)) (paths : List Path) :
    Enumerate.collect d { o with autoFix, dryRun, cache } paths = Enumerate.collect d o paths := by
  induction paths with
  | nil => rfl
  | cons p rest ih =>
    rw [Enumerate.collect, Enumerate.collect, ih]
    rfl

theorem scan?_settings (d : Disk) (o : Options) (autoFix dryRun : Bool)
    (cache : Option (Path × CacheMode)) (paths : List Path) :
    scan? d { o with autoFix, dryRun, cache } paths = scan? d o paths := by
  rw [scan?, scan?, Enumerate.enumerate, Enumerate.enumerate, collect_settings]
  rfl

theorem scan?_kept (d : Disk) (o : Options) (kept : Option (Path × CacheMode)) (paths : List Path) :
    scan? d { o with cache := kept } paths = scan? d o paths :=
  scan?_settings d o o.autoFix o.dryRun kept paths

theorem enumerate_of_isFile {p : Path} (h : d.isFile p = true) (o : Options) :
    Enumerate.enumerate d o [p] = .ok [p] := by
  simp only [Enumerate.enumerate, Enumerate.collect, h, if_true, Except.map, List.append_nil,
    List.mergeSort_singleton]
  rfl

theorem scan?_of_isFile {p : Path} (h : d.isFile p = true) (o : Options) :
    scan? d o [p] = .ok (some (build d o [p])) := by
  rw [scan?, enumerate_of_isFile h]
  rfl

theorem exitCode_settle (d : Disk) (o : Options) (cache : Cache) :
    (settle d o cache).1.exitCode = (settle d o cache).1.summary.exitCode := rfl

end BlockSync.Run
