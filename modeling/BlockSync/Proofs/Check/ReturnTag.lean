import BlockSync.Proofs.Cache.Origin
import BlockSync.Proofs.Check.Declared

/-! When a missing return tag is reported. The block that a declaration points at answers it with a
target under a name of the declaring file that the cache knows, and the cache knows the names of
requested files and those that requested files use. -/

namespace BlockSync.Check

open Cache (build)

variable {d : Disk} {o : Options} {files : List Path}

/-- The path is a name of the file that is given by its path without links, and the cache of the
requested files has it as a key. -/
def Known (d : Disk) (o : Options) (files : List Path) (file p : Path) : Prop :=
  d.canonical p = .ok file ∧ (p = file ∨ p ∈ files ∨ Cache.Referenced d o files p)

/-- The marker that reading a file stores for the id declares a local target with a property. -/
def Declares (d : Disk) (o : Options) (file : Path) (id : Text) (good : Path → Prop) : Prop :=
  ∃ marker, (Scan.scan d o file true).info.markers.find? id = some marker ∧
    ∃ t ∈ marker.targets.values, ∃ p : Path, t.kind = .file p.text ∧ good p

/-- A missing return tag is reported at a line for an id. -/
def ReportsNoReturnTag (o : Options) (cache : Cache) (info : FileInfo) (id : Text) (line : Nat) :
    Prop :=
  ∃ x ∈ checkFile o cache info, x.problem = .noReturnTag ∧ x.id = some id ∧ x.line? = some line

theorem mem_aliases_build (hd : d.WellFormed) {a p : Path} {info : FileInfo}
    (hk : (build d o files).find? a.text = some info) (ha : d.canonical a = .ok a) :
    p.text ∈ info.aliases ↔ Known d o files a p := by
  have hg := Cache.grouped_build (o := o) hd files
  have hq : d.canonical (.ofText a.text) = .ok a := by rwa [Path.ofText_text]
  rw [hg.mem_names hd hk hq, Path.ofText_text, Cache.contains_build hd, and_comm]
  refine and_congr_right fun hp => ?_
  constructor
  · rintro ⟨p', hm, hp' | hp'⟩
    · exact .inr (Path.eq_of_text hp' ▸ hm)
    · rcases Cache.eq_keyOf_iff.mp hp' with ⟨q, hq', he⟩ | ⟨-, he⟩
      · obtain rfl := Path.eq_of_text he
        have hc := hd.canonical_canonical hq'
        rw [hp] at hc
        exact .inl (Except.ok.inj hc).symm
      · exact .inr (Path.eq_of_text he ▸ hm)
  · rintro (rfl | hm)
    · obtain ⟨p', hm, hp'⟩ := (Cache.contains_build (o := o) hd).mp
        (SortedMap.contains_iff.mpr ⟨info, hk⟩)
      exact ⟨p', hm, hp'⟩
    · exact ⟨p, hm, .inl rfl⟩

theorem exists_block_of_marker {a : Path} {readOnly : Bool} {id : Text} {marker : Marker}
    (hm : (Scan.scan d o a readOnly).info.markers.find? id = some marker) :
    ∃ b ∈ Scan.blocksOf d o a, b.id = id ∧ marker = Scan.markerOf (Scan.settingOf d o a).relative b := by
  rw [Scan.find?_scan_markers] at hm
  obtain ⟨b, hb, rfl⟩ := Option.map_eq_some_iff.mp hm
  obtain ⟨hmem, hid⟩ := Scan.mem_of_kept? hb
  exact ⟨b, hmem, hid, rfl⟩

theorem canonical_of_marker (hd : d.WellFormed) {k : Text} {info : FileInfo} {id : Text}
    {marker : Marker} (hk : (build d o files).find? k = some info)
    (hm : info.markers.find? id = some marker) : ∃ q, d.canonical (.ofText k) = .ok q := by
  cases hc : d.canonical (.ofText k) with
  | ok q => exact ⟨q, rfl⟩
  | error cause =>
    obtain ⟨readOnly, rfl⟩ := (Cache.grouped_build (o := o) hd files).unresolved hk hc
    simp [Cache.unresolvable, FileInfo.new] at hm

theorem canonical_of_writable_marker (hd : d.WellFormed) {a : Path} {info : FileInfo} {id : Text}
    {marker : Marker} (hk : (build d o files).find? a.text = some info)
    (hw : info.readOnly = false) (hm : info.markers.find? id = some marker) :
    d.canonical a = .ok a := by
  obtain ⟨p, -, q, hp, he⟩ :=
    Cache.canonical_of_writable hd ⟨info, hk, hw⟩ (canonical_of_marker hd hk hm)
  obtain rfl := Path.eq_of_text he
  exact hd.canonical_canonical hp

theorem returnMarker?_build (hd : d.WellFormed) {a b : Path} {info : FileInfo} {id text : Text}
    (hk : (build d o files).find? a.text = some info) (ha : d.canonical a = .ok a)
    (hc : (build d o files).contains text = true) (hb : d.canonical (.ofText text) = .ok b) :
    (∃ marker, returnMarker? (build d o files) info id text = some marker) ↔
      Declares d o b id (Known d o files a) := by
  have hg := Cache.grouped_build (o := o) hd files
  obtain ⟨other, hother⟩ := SortedMap.contains_iff.mp hc
  have hmarkers : other.markers = (Scan.scan d o b true).info.markers := by
    rw [hg.markers_eq hd hother hb, Scan.scan_info d o b true]
  simp only [returnMarker?_eq_some, hother, Option.some.injEq, exists_eq_left', hmarkers, Declares]
  refine exists_congr fun marker => and_congr_right fun hm => exists_congr fun t => ?_
  refine and_congr_right fun ht => ?_
  constructor
  · rintro ⟨name, hkind, hname⟩
    obtain ⟨blk, hblk, -, rfl⟩ := exists_block_of_marker hm
    have htext := Cache.text_of_mem_blocksOf hblk ht hkind
    rw [← htext] at hkind hname
    exact ⟨.ofText name, hkind, (mem_aliases_build hd hk ha).mp hname⟩
  · rintro ⟨p, hkind, hp⟩
    exact ⟨p.text, hkind, (mem_aliases_build hd hk ha).mpr hp⟩

theorem reportsNoReturnTag_iff_none (ho : o.Settled) {k id text : Text}
    {info : FileInfo} {line : Nat} {marker : Marker} {target : Target}
    (hk : (build d o files).find? k = some info) (hm : info.markers.find? id = some marker)
    (ht : marker.targets.find? line = some target) (hkind : target.kind = .file text) :
    ReportsNoReturnTag o (build d o files) info id line ↔
      returnMarker? (build d o files) info id text = none := by
  constructor
  · rintro ⟨x, hx, hp, hid, hl⟩
    rcases mem_checkFile.mp hx with ⟨hx, -⟩ | ⟨y, ⟨hym, hyt⟩, hx⟩
    · have := Cache.isParsed_build hk hx
      simp [hp, Problem.isParsed] at this
    · unfold checkDeclaration at hx
      split at hx
      next path hypath =>
        rw [checkFileTarget_of_settled ho] at hx
        split at hx
        next =>
          rw [(checkChecksum_eq_some.mp hx).2] at hp
          simp [mismatchedChecksum] at hp
        next hnone =>
          obtain rfl := Option.some.inj hx
          obtain rfl : y.id = id := by simpa [noReturnTag, Diagnostic.onLine] using hid
          obtain rfl : y.line = line := by
            simpa [noReturnTag, Diagnostic.onLine, Diagnostic.line?, Location.ofLine] using hl
          obtain rfl : y.marker = marker := by simpa [hym] using hm
          obtain rfl : y.target = target := by simpa [hyt] using ht
          rw [hkind] at hypath
          rwa [TargetKind.file.inj hypath]
      next =>
        rw [(checkChecksum_eq_some.mp hx).2] at hp
        simp [mismatchedChecksum] at hp
  · intro hnone
    refine ⟨noReturnTag ⟨id, marker, line, target⟩, mem_checkFile.mpr (.inr ?_), rfl, rfl, rfl⟩
    refine ⟨⟨id, marker, line, target⟩, ⟨hm, ht⟩, ?_⟩
    simp only [checkDeclaration, hkind, checkFileTarget_of_settled ho, hnone]

/-- A declaration in a file that may be written lacks its return tag exactly if the block that it
points at has no target under a known name of the file; once the file with this block is requested
too, every name is known. -/
theorem reportsNoReturnTag_iff (hd : d.WellFormed) (ho : o.Settled) {a b : Path} {info : FileInfo}
    {id text : Text} {line : Nat} {marker : Marker} {target : Target} {lines : List Line}
    (hk : (build d o files).find? a.text = some info) (hw : info.readOnly = false)
    (hm : info.markers.find? id = some marker) (ht : marker.targets.find? line = some target)
    (hkind : target.kind = .file text) (hb : d.canonical (.ofText text) = .ok b)
    (hread : d.lines b = .ok (lines, none)) (hne : b ≠ a) :
    (ReportsNoReturnTag o (build d o files) info id line ↔
      ¬Declares d o b id (Known d o files a)) ∧
    ((∃ f ∈ files, d.canonical f = .ok b) →
      (ReportsNoReturnTag o (build d o files) info id line ↔
        ¬Declares d o b id fun p => d.canonical p = .ok a)) := by
  have ha := canonical_of_writable_marker hd hk hw hm
  have hself : d.canonical (.ofText a.text) = .ok a := by rwa [Path.ofText_text]
  have hscan : (Scan.scan d o a false).info.markers.find? id = some marker := by
    rw [← (Cache.grouped_build (o := o) hd files).markers_eq hd hk hself, hm]
  obtain ⟨blk, hblk, -, rfl⟩ := exists_block_of_marker hscan
  have hvalue : target ∈ blk.targets.values := SortedMap.mem_values_iff.mpr ⟨line, ht⟩
  have hfile : d.isFile (.ofText text) = true := by
    rw [← hd.isFile_canonical hb, Disk.isFile_of_lines hread]
  have hc : (build d o files).contains text = true := by
    refine Cache.contains_of_refers hd ⟨info, hk, hw⟩ (b := blk) ?_ hvalue hkind hfile ?_
    · rwa [Path.ofText_text]
    · rw [Path.ofText_text, hb]
      exact fun he => hne (Except.ok.inj he)
  have hiff : ReportsNoReturnTag o (build d o files) info id line ↔
      ¬Declares d o b id (Known d o files a) := by
    rw [reportsNoReturnTag_iff_none ho hk hm ht hkind, ← returnMarker?_build hd hk ha hc hb,
      not_exists]
    exact Option.eq_none_iff_forall_ne_some
  refine ⟨hiff, fun ⟨f, hf, hfb⟩ => hiff.trans (not_congr ?_)⟩
  refine exists_congr fun other => and_congr_right fun hother => exists_congr fun t =>
    and_congr_right fun hv => exists_congr fun p => and_congr_right fun hp => ?_
  refine ⟨fun hknown => hknown.1, fun hpa => ⟨hpa, .inr (.inr ?_)⟩⟩
  -- the block is one of a requested file, so that the file refers to all its targets
  obtain ⟨c, hcb, -, rfl⟩ := exists_block_of_marker hother
  have hpfile : d.isFile p = true := by
    rw [← hd.isFile_canonical hpa, Cache.isFile_of_mem_blocksOf hblk]
  have hnot : Scan.targetsSelf d b p.text = false := by
    refine Cache.targetsSelf_eq_false (hd.canonical_canonical hfb) ?_ ?_
    · rwa [Path.ofText_text]
    · rw [Path.ofText_text, hpa]
      exact fun he => hne (Except.ok.inj he).symm
  exact ⟨f, hf, b, hfb, c, hcb, t, hv, p.text, hp, hnot, by rwa [Path.ofText_text],
    (Path.ofText_text p).symm⟩

/-- Two files that point at each other, the second one under another name of the first. -/
def detourDisk : Disk :=
  ((Disk.bare.set ["a"]
    (.file (Text.Utf8.encode "# sync-start:m b\nx\n# sync-end:m\n") 0o644#12)).set ["b"]
    (.file (Text.Utf8.encode "# sync-start:m l\nx\n# sync-end:m\n") 0o644#12)).set ["l"] (.link "a")

theorem detourDisk_wellFormed : detourDisk.WellFormed := by
  constructor <;> decide

/-- If only the first file is requested, its return tag is missed. -/
theorem reportsNoReturnTag_detourDisk :
    ∃ info, (build detourDisk .standard [.ofText "/a"]).find? "/a" = some info ∧
      ReportsNoReturnTag .standard (build detourDisk .standard [.ofText "/a"]) info "m" 1 ∧
      ¬Declares detourDisk .standard (.ofText "/b") "m"
        (Known detourDisk .standard [.ofText "/a"] (.ofText "/a")) ∧
      Declares detourDisk .standard (.ofText "/b") "m"
        fun p => detourDisk.canonical p = .ok (.ofText "/a") := by
  have hentry : ((build detourDisk .standard [.ofText "/a"]).find? "/a").any (fun info =>
      !info.readOnly && (info.markers.find? "m").any fun marker =>
        (marker.targets.find? 1).any fun target => target.kind == .file "/b") = true := by
    decide +kernel
  have hreturn : ((Scan.scan detourDisk .standard (.ofText "/b") true).info.markers.find? "m").any
      (fun marker => marker.targets.values.any fun t => t.kind == .file (Path.ofText "/l").text) =
        true := by
    decide +kernel
  have hnone : ((build detourDisk .standard [.ofText "/a"]).find? "/a").any (fun info =>
      returnMarker? (build detourDisk .standard [.ofText "/a"]) info "m" "/b" == none) = true := by
    decide +kernel
  simp only [Option.any_eq_true, Bool.and_eq_true, Bool.not_eq_true', beq_iff_eq,
    List.any_eq_true] at hentry hreturn hnone
  obtain ⟨info, hk, hw, marker, hm, target, ht, hkind⟩ := hentry
  obtain ⟨other, hother, t, hv, ht'⟩ := hreturn
  obtain ⟨info', hk', hnone⟩ := hnone
  obtain rfl : info = info' := Option.some.inj (hk.symm.trans hk')
  have hreport := (reportsNoReturnTag_iff_none Options.standard_settled hk hm
    ht hkind).mpr hnone
  have hread : detourDisk.lines (.ofText "/b") =
      .ok ([⟨"# sync-start:m l", "\n"⟩, ⟨"x", "\n"⟩, ⟨"# sync-end:m", "\n"⟩], none) := by
    decide +kernel
  have hiff := reportsNoReturnTag_iff (a := .ofText "/a") (b := .ofText "/b")
    detourDisk_wellFormed Options.standard_settled hk hw hm ht hkind (by decide +kernel) hread
    (by decide +kernel)
  exact ⟨info, hk, hreport, hiff.1.mp hreport, other, hother, t, hv, .ofText "/l", ht',
    by decide +kernel⟩

end BlockSync.Check
