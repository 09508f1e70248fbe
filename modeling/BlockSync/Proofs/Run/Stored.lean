import BlockSync.Proofs.Cache.Bounded
import BlockSync.Proofs.Run.DryRun

/-! Runs in two halves. The first run scans and keeps its cache in a file, and the second one checks
what the file says. Together they come to what one run comes to, as long as the path of the file
still leads to it. -/

namespace BlockSync

open Text.Utf8 (encode)

namespace Cache

variable {c : Cache} {d d' : Disk} {p : Path}

theorem written_of_save (h : c.save d p = (.ok (), d')) : d.Written p (encode c.saved) d' := by
  unfold save at h
  split at h
  next hr =>
    obtain rfl := (Prod.mk.inj h).2
    exact Disk.written_of_replace hr
  next => simp at h

theorem Bounded.load_of_save (hc : c.Bounded) (h : c.save d p = (.ok (), d')) :
    load d' p = .ok c ↔ d'.present p = true := by
  have hw := written_of_save h
  unfold load Disk.text Disk.present
  cases hf : d'.find p.text with
  | error cause => simp
  | ok found =>
    obtain ⟨place, e⟩ := found
    obtain ⟨mode, rfl⟩ := hw.found place e hf
    simp only [Text.Utf8.decode_encode, hc.ofSaved?_saved]

theorem present_of_load (h : load d p = .ok c) : d.present p = true := by
  unfold load Disk.text at h
  unfold Disk.present
  cases hf : d.find p.text with
  | error cause => simp [hf] at h
  | ok found => rfl

end Cache

namespace Report

variable {r : Report} {file : Active}

/-- What a report without repairs says has nothing to do with the disk. -/
theorem settle_eq_of_check (h : r.autoFix = false) (d : Disk) :
    r.settle d file =
      (if file.diagnostics = [] then r.withFile
        else r.withFile.tell file.path.text file.diagnostics, d) := by
  by_cases hclean : file.diagnostics = []
  · rw [settle_of_clean hclean, if_pos hclean]
  · rw [settle_of_told hclean (by rw [h, Bool.false_and]), if_neg hclean]

end Report

namespace Run

variable {d d' : Disk} {o : Options} {p : Path} {cache : Cache}

theorem settleAll_of_check {r : Report} (h : r.autoFix = false) (d d' : Disk)
    (reports : List Check.FileReport) :
    (settleAll r d reports).1 = (settleAll r d' reports).1 := by
  induction reports generalizing r with
  | nil => rfl
  | cons file rest ih =>
    have hmode := (r.settle_mode d ⟨.ofText file.path, file.diagnostics⟩).1
    rw [settleAll, settleAll]
    simp only [Report.settle_eq_of_check h] at hmode ⊢
    rw [ih (hmode.trans h)]

/-- What a check says depends on the cache and on no disk. -/
theorem settle_eq_of_check (ho : o.autoFix = false) (d d' : Disk)
    (kept kept' : Option (Path × CacheMode)) (cache : Cache) :
    settle d { o with cache := kept } cache =
      ((settle d' { o with cache := kept' } cache).1, d) := by
  have hreport := settleAll_of_check (r := .new o.autoFix o.dryRun) ho d d' (Check.check o cache)
  refine Prod.ext ?_ (settle_of_check (o := { o with cache := kept }) ho cache).1
  exact congrArg (fun r : Report => Outcome.mk r.summary.exitCode r.summary r.notices) hreport

theorem run_of_writing (hc : o.cache = some (p, .write)) (paths : List Path) :
    run d o paths =
      match scan? d o paths with
      | .error failure => (.error failure, d)
      | .ok none => (.ok ⟨.noMatchingFiles, .zero, []⟩, d)
      | .ok (some cache) =>
        ((cache.save d p).1.map fun _ => ⟨.success, .zero, []⟩, (cache.save d p).2) := by
  have hcache : cache? d o paths = scan? d o paths := by simp only [cache?, hc]
  cases hs : scan? d o paths with
  | error failure => simp only [run, hcache, hs]
  | ok scanned =>
    cases scanned with
    | none => simp only [run, hcache, hs]
    | some cache =>
      simp only [run, hcache, hs, hc]
      rcases cache.save d p with ⟨failure | ⟨⟨⟩⟩, d'⟩ <;> rfl

theorem run_of_save (hc : o.cache = some (p, .write)) {paths : List Path}
    (hscan : scan? d o paths = .ok (some cache)) (hsave : cache.save d p = (.ok (), d')) :
    run d o paths = (.ok ⟨.success, .zero, []⟩, d') := by
  rw [run_of_writing hc, hscan]
  dsimp only
  rw [hsave, Except.map]

theorem exists_save_of_writing (hc : o.cache = some (p, .write)) {paths : List Path}
    {out : Outcome} (h : run d o paths = (.ok out, d')) (hs : out.exitCode = .success) :
    ∃ files, scan? d o paths = .ok (some (Cache.build d o files)) ∧
      (Cache.build d o files).save d p = (.ok (), d') := by
  rw [run_of_writing hc] at h
  split at h
  next => simp at h
  next =>
    obtain rfl := Except.ok.inj (Prod.mk.inj h).1
    simp at hs
  next cache hscan =>
    obtain ⟨files, -, rfl⟩ := eq_build_of_scan? hscan
    obtain ⟨hout, hdisk⟩ := Prod.mk.inj h
    cases hsave : ((Cache.build d o files).save d p).1 with
    | error failure => simp [hsave, Except.map] at hout
    | ok => exact ⟨files, hscan, Prod.ext hsave hdisk⟩

theorem run_of_reading (hc : o.cache = some (p, .read)) (paths : List Path) :
    run d o paths =
      match Cache.load d p with
      | .error failure => (.error failure, d)
      | .ok cache => (.ok (settle d o cache).1, (settle d o cache).2) := by
  cases hl : Cache.load d p with
  | error failure => simp only [run, cache?, hc, hl, Except.map]
  | ok cache => simp only [run, cache?, hc, hl, Except.map]

/-- A saved cache is read back as it was, and a run that saves and one that reads come to what a run
without a cache comes to: each exactly if the path of the file leads anywhere once it is written. -/
theorem lossless (p : Path) :
    (∀ (c : Cache) (d d' : Disk), c.Bounded → c.save d p = (.ok (), d') →
      (Cache.load d' p = .ok c ↔ d'.present p = true)) ∧
    ∀ (d d' : Disk) (o : Options) (paths paths' : List Path) (out : Outcome), d.Sized →
      o.autoFix = false → run d { o with cache := some (p, .write) } paths = (.ok out, d') →
      out.exitCode = .success →
      ∃ outcome, run d { o with cache := none } paths = (.ok outcome, d) ∧
        (run d' { o with cache := some (p, .read) } paths' = (.ok outcome, d') ↔
          d'.present p = true) := by
  refine ⟨fun c d d' hc hs => hc.load_of_save hs, fun d d' o paths paths' out hd ho hwrite hout => ?_⟩
  obtain ⟨files, hscan, hsave⟩ := exists_save_of_writing rfl hwrite hout
  have hload := (Cache.bounded_build hd o files).load_of_save hsave
  have hdirect : scan? d { o with cache := none } paths = .ok (some (Cache.build d o files)) :=
    (scan?_kept d o none paths).trans ((scan?_kept d o _ paths).symm.trans hscan)
  refine ⟨(settle d { o with cache := none } (Cache.build d o files)).1, ?_, fun hread => ?_,
    fun hpresent => ?_⟩
  · have hsettle := settle_eq_of_check ho d d none none (Cache.build d o files)
    rw [run_of_uncached rfl, hdirect]
    dsimp only
    rw [hsettle]
  · -- whatever cache was read, its path led to it
    rw [run_of_reading rfl] at hread
    split at hread
    next => simp at hread
    next hl => exact Cache.present_of_load hl
  · have hsettle := settle_eq_of_check ho d' d (some (p, .read)) none (Cache.build d o files)
    rw [run_of_reading rfl, hload.mpr hpresent]
    dsimp only
    rw [hsettle]

theorem staleDisk_sized : Check.staleDisk.Sized := by
  have hall : Check.staleDisk.entries.entries.all (fun e => decide (Json.InWord e.2.size)) = true := by
    decide +kernel
  exact fun e he => of_decide_eq_true (List.all_eq_true.mp hall e he)

theorem lossless_staleDisk :
    let kept : CacheMode → Options := fun mode =>
      { Options.standard with cache := some (.ofText "/c", mode) }
    let c := Cache.build Check.staleDisk .standard [.ofText "/a"]
    let saved := c.save Check.staleDisk (.ofText "/c")
    (c.Bounded ∧ saved = (.ok (), saved.2) ∧ Cache.load saved.2 (.ofText "/c") = .ok c) ∧
      Check.staleDisk.Sized ∧
      run Check.staleDisk (kept .write) [.ofText "/a"] = (.ok ⟨.success, .zero, []⟩, saved.2) ∧
      ∃ outcome, run Check.staleDisk .standard [.ofText "/a"] = (.ok outcome, Check.staleDisk) ∧
        run saved.2 (kept .read) [] = (.ok outcome, saved.2) := by
  intro kept c saved
  have hbounded : c.Bounded := Cache.bounded_build staleDisk_sized _ _
  have hscan : scan? Check.staleDisk .standard [.ofText "/a"] = .ok (some c) :=
    scan?_of_isFile (by decide +kernel) _
  have hok : saved.1 = .ok () := by decide +kernel
  have hsaved : saved = (.ok (), saved.2) := by rw [← hok]
  have hpresent : saved.2.present (.ofText "/c") = true := by decide +kernel
  have hwritten : run Check.staleDisk (kept .write) [.ofText "/a"] =
      (.ok ⟨.success, .zero, []⟩, saved.2) :=
    run_of_save rfl ((scan?_kept ..).trans hscan) hsaved
  obtain ⟨outcome, hdirect, hread⟩ := (lossless (.ofText "/c")).2 Check.staleDisk saved.2 .standard
    [.ofText "/a"] [] _ staleDisk_sized rfl hwritten rfl
  have hload := (lossless (.ofText "/c")).1 c Check.staleDisk saved.2 hbounded hsaved
  exact ⟨⟨hbounded, hsaved, hload.mpr hpresent⟩, staleDisk_sized, hwritten, outcome, hdirect,
    hread.mpr hpresent⟩

/-- The only way to the directory at `/a` is over the link at `/b`. -/
def hiddenDisk : Disk :=
  (((Disk.bare.set ["a"] (.link "b/..")).set ["b"] (.link "c")).set ["c"] .directory).set ["x"]
    (.file (Text.Utf8.encode "hi\n") 0o644#12)

/-- A cache that takes the place of that link is not found again. -/
theorem unread_hiddenDisk :
    let kept : CacheMode → Options := fun mode =>
      { Options.standard with cache := some (.ofText "/a/b", mode) }
    let c := Cache.build hiddenDisk .standard [.ofText "/x"]
    let saved := c.save hiddenDisk (.ofText "/a/b")
    let lost : Failure := .refused ⟨"/a/b", .notDirectory⟩
    (saved = (.ok (), saved.2) ∧ Cache.load saved.2 (.ofText "/a/b") = .error lost) ∧
      run hiddenDisk (kept .write) [.ofText "/x"] = (.ok ⟨.success, .zero, []⟩, saved.2) ∧
      run hiddenDisk .standard [.ofText "/x"] = (.ok ⟨.success, ⟨1, 0, 0, 0, 0⟩, []⟩, hiddenDisk) ∧
      run saved.2 (kept .read) [.ofText "/x"] = (.error lost, saved.2) := by
  intro kept c saved lost
  have hscan : scan? hiddenDisk .standard [.ofText "/x"] = .ok (some c) :=
    scan?_of_isFile (by decide +kernel) _
  have hok : saved.1 = .ok () := by decide +kernel
  have hsaved : saved = (.ok (), saved.2) := by rw [← hok]
  have hload : Cache.load saved.2 (.ofText "/a/b") = .error lost := by decide +kernel
  have hsettle : settle hiddenDisk .standard c = (⟨.success, ⟨1, 0, 0, 0, 0⟩, []⟩, hiddenDisk) :=
    Prod.ext (by decide +kernel) (settle_of_check rfl c).1
  refine ⟨⟨hsaved, hload⟩, run_of_save rfl ((scan?_kept ..).trans hscan) hsaved, ?_, ?_⟩
  · rw [run_of_uncached rfl, hscan]
    dsimp only
    rw [hsettle]
  · rw [run_of_reading rfl, hload]

end Run

end BlockSync
