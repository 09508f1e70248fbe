import BlockSync.Proofs.Cache.Distinct
import BlockSync.Proofs.Check.Migrated
import BlockSync.Proofs.Check.ReturnTag

/-! Nothing that reading a file finds is lost in the report on it. A missing target that a migration
takes care of is left out, but then what its declaration is told to do is in the report, since a
target that is not there has no block to answer. -/

namespace BlockSync

namespace Block

variable {s : TagSyntax} {resolve : Text → Resolved} {lines : List Text} {x : Diagnostic}

theorem missing_of_mem_declarationProblems {block : Opened} {line : Nat} {tag : Tag.Start}
    {declaration : Text} {resolved : Resolved}
    (h : x ∈ declarationProblems block line tag declaration resolved)
    (hx : x.problem = .fileDoesNotExist) : resolved.present = false := by
  simp only [declarationProblems, List.mem_append] at h
  rcases h with ((h | h) | h) | h <;> split at h
  case inl.inl.inl.isTrue hc => simpa using (Bool.and_eq_true_iff.mp hc).2
  case inl.inl.inr.isTrue =>
    rw [List.mem_singleton.mp h] at hx
    cases hx
  case inl.inr.isTrue =>
    rw [List.mem_singleton.mp h] at hx
    cases hx
  case inr.isTrue =>
    rw [List.mem_singleton.mp h] at hx
    cases hx
  all_goals simp at h

/-- A missing target is reported in the line that declares it. -/
theorem exists_start_of_missing (h : Event.problem x ∈ events s resolve lines)
    (hx : x.problem = .fileDoesNotExist) :
    ∃ i raw tag, lines[i]? = some raw ∧ reads s raw = .start tag ∧ x.line? = some (i + 1) ∧
      (resolve tag.target).present = false := by
  rcases List.mem_append.mp h with h | h
  · obtain ⟨pre, raw, post, rfl, hfeed⟩ := mem_feedAll.mp h
    have hline : (feedAll s resolve .initial pre).1.line = pre.length :=
      (Describes.initial.feedAll pre).line_eq
    have hx' := line_of_mem_feed hfeed
    rw [hline] at hx'
    rcases problem_of_feed hfeed with ⟨tag, hr, hm⟩ | ⟨id, rfl⟩ | ⟨fault, rfl | rfl⟩
    · exact ⟨pre.length, raw, tag, by simp, hr, hx', missing_of_mem_declarationProblems hm hx⟩
    all_goals exact absurd hx nofun
  · obtain ⟨id, block, line, -, -, he⟩ := mem_finish.mp h
    rw [Event.problem.inj he] at hx
    exact absurd hx nofun

end Block

namespace Check

open Cache (build Records)

variable {d : Disk} {o : Options} {files : List Path} {k : Text} {info : FileInfo} {x : Diagnostic}

/-- The declaration is told something that comes from comparing it with others. -/
def concerns (z : Declaration) (x : Diagnostic) : Bool :=
  !x.problem.isParsed && x.id == some z.id && x.line? == some z.line

theorem concerns_iff {z : Declaration} : concerns z x = true ↔
    x.problem.isParsed = false ∧ x.id = some z.id ∧ x.line? = some z.line := by
  simp [concerns, and_assoc]

theorem concerns_unique {y z : Declaration} (hy : concerns y x = true) (hz : concerns z x = true) :
    (y.id, y.line) = (z.id, z.line) := by
  obtain ⟨-, hid, hl⟩ := concerns_iff.mp hy
  obtain ⟨-, hid', hl'⟩ := concerns_iff.mp hz
  rw [Option.some.inj (hid.symm.trans hid'), Option.some.inj (hl.symm.trans hl')]

theorem concerns_of_checkDeclaration {cache : Cache} {z : Declaration}
    (h : checkDeclaration o cache info z = some x) : concerns z x = true := by
  obtain ⟨expected, rfl⟩ | ⟨moved, rfl⟩ | rfl := checkDeclaration_cases h
  · simp [concerns, mismatchedChecksum, Problem.isParsed, Diagnostic.line?, Location.ofLine]
  · simp [concerns, pendingMigration, Problem.isParsed, Diagnostic.line?, Location.ofLine]
  · simp [concerns, noReturnTag, Problem.isParsed, Diagnostic.onLine, Diagnostic.line?,
      Location.ofLine]

theorem nodup_declarations (info : FileInfo) :
    ((declarations info).map fun z => (z.id, z.line)).Nodup := by
  rw [declarations, List.map_flatMap, List.nodup_flatMap]
  constructor
  · rintro ⟨id, marker⟩ -
    have hkeys : ((marker.targets.entries.map fun e => (⟨id, marker, e.1, e.2⟩ : Declaration)).map
        fun z => (z.id, z.line)) = marker.targets.keys.map fun n => (id, n) := by
      rw [List.map_map, SortedMap.keys, List.map_map]
      rfl
    exact hkeys ▸ marker.targets.nodup_keys.map fun n n' h => (Prod.mk.inj h).2
  · refine info.markers.sorted.imp fun {a b} hlt => ?_
    intro e ha hb
    simp only [List.map_map, List.mem_map, Function.comp_apply] at ha hb
    obtain ⟨_, -, rfl⟩ := ha
    obtain ⟨_, -, he⟩ := hb
    have hid := (Prod.mk.inj he).1
    simp [hid] at hlt

theorem present_of_resolveTarget {root : Path} {reference name : Text}
    (h : (Scan.resolveTarget d root reference).kind = .file name) :
    (Scan.resolveTarget d root reference).present = d.isFile (.ofText name) := by
  unfold Scan.resolveTarget at h ⊢
  split at h
  next => simp at h
  next hr =>
    rw [← TargetKind.file.inj h, Path.ofText_text, if_neg hr]

/-- A target that is not there has no block that could answer. -/
theorem returnMarker?_of_missing (hd : d.WellFormed) {id name : Text}
    (hf : d.isFile (.ofText name) = false) :
    returnMarker? (build d o files) info id name = none := by
  rw [Option.eq_none_iff_forall_ne_some]
  intro marker hmarker
  obtain ⟨other, hother, hm, -⟩ := returnMarker?_eq_some.mp hmarker
  obtain ⟨q, hq⟩ := canonical_of_marker hd hother hm
  rw [(Cache.grouped_build hd files).markers_eq hd hother hq] at hm
  obtain ⟨b, hb, -, -⟩ := exists_block_of_marker hm
  have hfile := Cache.isFile_of_mem_blocksOf hb
  rw [hd.isFile_canonical hq, hf] at hfile
  exact Bool.false_ne_true hfile

theorem migrates_eq_true (h : migrates o info x = true) :
    x.problem = .fileDoesNotExist ∧ ∃ z ∈ declarations info, x.id = some z.id ∧
      x.line? = some z.line ∧ ∃ name moved, z.target.kind = .file name ∧
        o.migrations.resolveTarget (.ofText info.root) name = some moved := by
  obtain ⟨hp, hmoved⟩ := Bool.and_eq_true_iff.mp h
  obtain ⟨moved, hmoved⟩ := Option.isSome_iff_exists.mp hmoved
  simp only [Option.bind_eq_bind, Option.bind_eq_some_iff] at hmoved
  obtain ⟨id, hid, marker, hm, line, hl, target, ht, name, hn, hmoved⟩ := hmoved
  refine ⟨beq_iff_eq.mp hp, ⟨id, marker, line, target⟩, mem_declarations.mpr ⟨hm, ht⟩, hid, hl,
    name, moved, ?_, hmoved⟩
  cases hk : target.kind with
  | remote url => simp [hk, TargetKind.path?] at hn
  | file path =>
    rw [hk] at hn
    rw [Option.some.inj hn]

theorem isFile_of_missing {q : Path} {lines : List Line} (h : Records d o q lines info)
    (hx : x ∈ info.problems) (hp : x.problem = .fileDoesNotExist) {z : Declaration}
    (hz : z ∈ declarations info) (hl : x.line? = some z.line) {name : Text}
    (hk : z.target.kind = .file name) : d.isFile (.ofText name) = false := by
  rw [h.problems_eq] at hx
  rcases Scan.mem_problemsOf.mp hx with hx | ⟨pre, b, post, -, hx⟩
  · obtain ⟨i, raw, tag, hraw, hr, hline, hmissing⟩ := Block.exists_start_of_missing hx hp
    obtain ⟨hm, ht⟩ := mem_declarations.mp hz
    obtain ⟨j, line, tag', hj, hgot, hstart, -, htarget⟩ := h.exists_start hm ht
    -- the problem and the declaration stand in the same line, so that they have the same tag
    obtain rfl : i = j := by
      rw [hl, hj] at hline
      exact (Nat.succ.inj (Option.some.inj hline)).symm
    rw [List.getElem?_map, hgot] at hraw
    obtain rfl := Option.some.inj hraw
    rw [h.reads_raw (List.mem_of_getElem? hgot), hstart] at hr
    obtain rfl := Tag.Line.start.inj hr
    rw [htarget] at hk
    rw [← present_of_resolveTarget hk]
    exact hmissing
  · have hnoted := Scan.isNoted_blockProblems hx
    rw [hp] at hnoted
    exact absurd hnoted Bool.false_ne_true

theorem checkDeclaration_of_missing (hd : d.WellFormed) {z : Declaration} {name moved : Text}
    (hk : z.target.kind = .file name) (hf : d.isFile (.ofText name) = false)
    (hm : o.migrations.resolveTarget (.ofText info.root) name = some moved) :
    checkDeclaration o (build d o files) info z = some (pendingMigration o.tagSyntax z moved) := by
  simp only [checkDeclaration, hk, checkFileTarget, hm, returnMarker?_of_missing hd hf]
  exact ite_self _

/-- What is left out since a migration takes care of it is told of its declaration instead. -/
theorem exists_pendingMigration (hd : d.WellFormed) (hk : (build d o files).find? k = some info)
    (hx : x ∈ info.problems) (h : migrates o info x = true) :
    ∃ y ∈ checkFile o (build d o files) info,
      y.problem = .pendingMigration ∧ y.id = x.id ∧ y.line? = x.line? := by
  obtain ⟨hp, z, hz, hid, hl, name, moved, hkind, hmoved⟩ := migrates_eq_true h
  obtain ⟨q, lines, -, hrecords, -⟩ :=
    (Cache.traced_build d o files k info hk).exists_records (mem_declarations.mp hz).1
  have hf := isFile_of_missing hrecords hx hp hz hl hkind
  have hy : checkDeclaration o (build d o files) info z =
      some (pendingMigration o.tagSyntax z moved) :=
    checkDeclaration_of_missing hd hkind hf hmoved
  exact ⟨_, mem_checkFile.mpr (.inr ⟨z, mem_declarations.mp hz, hy⟩), rfl, hid.symm, hl.symm⟩

theorem count_checkFile (hk : (build d o files).find? k = some info) (hx : x ∈ info.problems) :
    (checkFile o (build d o files) info).count x = if migrates o info x then 0 else 1 := by
  have hparsed := Cache.isParsed_build hk hx
  have hnodup : info.problems.Nodup := by
    rcases Cache.problems_build hk with ⟨reason, hp⟩ | ⟨hn, -⟩
    · rw [hp]
      exact List.nodup_singleton _
    · exact hn
  have hnone : ((declarations info).filterMap
      (checkDeclaration o (build d o files) info)).count x = 0 := by
    rw [List.count_eq_zero, List.mem_filterMap]
    rintro ⟨z, -, hz⟩
    rw [(concerns_iff.mp (concerns_of_checkDeclaration hz)).1] at hparsed
    exact Bool.false_ne_true hparsed
  rw [checkFile_perm.count_eq, List.count_append, hnone, Nat.add_zero]
  by_cases hm : migrates o info x = true
  · rw [if_pos hm, List.count_eq_zero]
    simp [hm]
  · rw [if_neg hm, List.count_filter (by simpa using hm)]
    exact List.count_eq_one_of_mem hnodup hx

theorem countP_concerns_le (hk : (build d o files).find? k = some info) (z : Declaration) :
    (checkFile o (build d o files) info).countP (concerns z) ≤ 1 := by
  have hnone : (info.problems.filter (!migrates o info ·)).countP (concerns z) = 0 := by
    rw [List.countP_eq_zero]
    intro x hx hc
    have hparsed := Cache.isParsed_build hk (List.mem_of_mem_filter hx)
    rw [(concerns_iff.mp hc).1] at hparsed
    exact Bool.false_ne_true hparsed
  rw [checkFile_perm.countP_eq, List.countP_append, hnone, Nat.zero_add, List.countP_filterMap]
  calc (declarations info).countP (fun y =>
        ((checkDeclaration o (build d o files) info y).map (concerns z)).getD false)
      ≤ (declarations info).countP fun y => (y.id, y.line) == (z.id, z.line) := by
        refine List.countP_mono_left fun y _ hy => ?_
        cases hc : checkDeclaration o (build d o files) info y with
        | none => simp [hc] at hy
        | some x =>
          rw [hc] at hy
          exact beq_iff_eq.mpr (concerns_unique (concerns_of_checkDeclaration hc) hy)
    _ = ((declarations info).map fun y => (y.id, y.line)).count (z.id, z.line) := by
        rw [List.count_eq_countP, List.countP_map]
        rfl
    _ ≤ 1 := List.nodup_iff_count_le_one.mp (nodup_declarations info) _

theorem line_pos_of_mem_checkFile (hk : (build d o files).find? k = some info)
    (hx : x ∈ checkFile o (build d o files) info) {n : Nat} (hn : x.line? = some n) : 0 < n := by
  rcases mem_checkFile.mp hx with ⟨hx, -⟩ | ⟨z, ⟨hm, ht⟩, hz⟩
  · rcases Cache.problems_build hk with ⟨reason, hp⟩ | ⟨-, hlines⟩
    · rw [hp, List.mem_singleton] at hx
      rw [hx] at hn
      exact absurd hn (Option.some_ne_none n).symm
    · obtain ⟨m, hpos, hm⟩ := hlines x hx
      rwa [← Option.some.inj (hm.symm.trans hn)]
  · obtain ⟨q, lines, -, hrecords, -⟩ := (Cache.traced_build d o files k info hk).exists_records hm
    obtain ⟨i, _, _, hi, -⟩ := hrecords.exists_start hm ht
    have hline := (concerns_iff.mp (concerns_of_checkDeclaration hz)).2.2
    rw [← Option.some.inj (hline.symm.trans hn), hi]
    exact Nat.succ_pos i

/-- Problems are told line by line, those without a place before all others. -/
def Precedes (x y : Diagnostic) : Prop :=
  ∀ n, x.line? = some n → ∃ m, y.line? = some m ∧ n ≤ m

theorem pairwise_checkFile (hk : (build d o files).find? k = some info) :
    (checkFile o (build d o files) info).Pairwise Precedes := by
  have hsorted : (checkFile o (build d o files) info).Pairwise fun x y =>
      decide (x.line?.getD 0 ≤ y.line?.getD 0) = true := by
    refine List.pairwise_mergeSort (fun a b c hab hbc => ?_) (fun a b => ?_) _
    · rw [decide_eq_true_eq] at hab hbc ⊢
      exact Nat.le_trans hab hbc
    · rw [Bool.or_eq_true, decide_eq_true_eq, decide_eq_true_eq]
      exact Nat.le_total _ _
  refine hsorted.imp_of_mem fun {x y} hx _ hle n hn => ?_
  -- lines count from one, so that the zero of a problem without a place is no line's number
  have hpos := line_pos_of_mem_checkFile hk hx hn
  rw [decide_eq_true_eq, hn, Option.getD_some] at hle
  cases hy : y.line? with
  | none =>
    rw [hy, Option.getD_none] at hle
    omega
  | some m =>
    rw [hy, Option.getD_some] at hle
    exact ⟨m, rfl, hle⟩

/-- What a report on a file holds: each problem that reading the file found, but for missing targets
whose declarations are told to migrate, and at most one further problem for each declaration. -/
structure Lists (info : FileInfo) (found : List Diagnostic) : Prop where
  sorted : found.Pairwise Precedes
  parsed : ∀ x ∈ info.problems, found.count x = 1 ∨
    found.count x = 0 ∧ x.problem = .fileDoesNotExist ∧
      ∃ y ∈ found, y.problem = .pendingMigration ∧ y.id = x.id ∧ y.line? = x.line?
  further : ∀ x ∈ found, x ∈ info.problems ∨ ∃ z ∈ declarations info, concerns z x = true
  once : ∀ z ∈ declarations info, found.countP (concerns z) ≤ 1

theorem lists_checkFile (hd : d.WellFormed) (hk : (build d o files).find? k = some info) :
    Lists info (checkFile o (build d o files) info) := by
  constructor
  case sorted =>
    exact pairwise_checkFile hk
  case parsed =>
    intro x hx
    have hcount := count_checkFile hk hx
    by_cases hm : migrates o info x = true
    · rw [if_pos hm] at hcount
      exact .inr ⟨hcount, (migrates_eq_true hm).1, exists_pendingMigration hd hk hx hm⟩
    · rw [if_neg hm] at hcount
      exact .inl hcount
  case further =>
    intro x hx
    rcases mem_checkFile.mp hx with ⟨hx, -⟩ | ⟨z, hz, hx⟩
    · exact .inl hx
    · exact .inr ⟨z, mem_declarations.mpr hz, concerns_of_checkDeclaration hx⟩
  case once =>
    exact fun z _ => countP_concerns_le hk z

theorem movedDisk_wellFormed : movedDisk.WellFormed := by
  constructor <;> decide

/-- The target of the file is missing, and instead of that the report tells where it has moved. -/
theorem lists_movedDisk :
    ∃ info, (build movedDisk moving [.ofText "/a"]).find? "/a" = some info ∧
      Lists info (checkFile moving (build movedDisk moving [.ofText "/a"]) info) ∧
      info.problems.map (·.problem) = [.fileDoesNotExist] ∧
      ∃ y ∈ checkFile moving (build movedDisk moving [.ofText "/a"]) info,
        y.problem = .pendingMigration ∧ y.line? = some 1 := by
  have hentry : ((build movedDisk moving [.ofText "/a"]).find? "/a").any (fun info =>
      info.problems.map (·.problem) == [.fileDoesNotExist] && info.problems.all fun x =>
        migrates moving info x && x.line? == some 1) = true := by
    decide +kernel
  simp only [Option.any_eq_true, Bool.and_eq_true, beq_iff_eq, List.all_eq_true] at hentry
  obtain ⟨info, hk, hkinds, hall⟩ := hentry
  have hlists := lists_checkFile movedDisk_wellFormed hk
  obtain ⟨x, hx, -⟩ := List.map_eq_singleton_iff.mp hkinds
  have hmem : x ∈ info.problems := hx ▸ List.mem_singleton_self x
  obtain ⟨hm, hline⟩ := hall x hmem
  have hcount := count_checkFile hk hmem
  rw [if_pos hm] at hcount
  rcases hlists.parsed x hmem with hone | ⟨-, -, y, hy, hp, -, hl⟩
  · rw [hcount] at hone
    exact absurd hone Nat.zero_ne_one
  · exact ⟨info, hk, hlists, hkinds, y, hy, hp, hl.trans hline⟩

end Check

end BlockSync
