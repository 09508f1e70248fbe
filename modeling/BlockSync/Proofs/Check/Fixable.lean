import BlockSync.Proofs.Cache.Record
import BlockSync.Proofs.Check.Declared
import BlockSync.Proofs.Repair.Apply
import BlockSync.Proofs.Repair.Revised

/-! The repairs of a file all of whose findings can be repaired. They delete the declarations that
repeat a target and put the expected checksums into others, and all of them apply. -/

namespace BlockSync.Check

open Block (OnlyRepeats amendLine repeats revise reviseLine stateAfter targetOf)
open Cache (Records resolverOf)
open Repair (RevisesAt fits rewriteLine)

/-- The checksum that a check expects of a declaration. -/
def expected (cache : Cache) (info : FileInfo) (id : Text) : TargetKind → Text
  | .file path =>
    ((returnMarker? cache info id path).map Marker.contentChecksum).getD Checksum.absent
  | .remote _ => ((info.markers.find? id).map Marker.selfChecksum).getD Checksum.absent

/-- How a checksum is written into a declaration. -/
def written (checksum : Text) : Text :=
  if checksum = Checksum.absent then [] else checksum

/-- What a start tag is to record, if it is not what it records. -/
def amendment (resolve : Text → Resolved) (want : Text → TargetKind → Text) (tag : Tag.Start) :
    Option Text :=
  let checksum := want tag.id (resolve tag.target).kind
  if tag.checksum.getD Checksum.absent = checksum then none else some (written checksum)

/-- The lines of a file with what its repairs make of them. -/
def repairedLines (d : Disk) (o : Options) (cache : Cache) (path : Path) (info : FileInfo)
    (lines : List Line) : List Line :=
  revise o.tagSyntax (resolverOf d o path) (amendment (resolverOf d o path) (expected cache info))
    .initial lines

/-- All that is wrong with a file can be repaired. -/
def Fixable (o : Options) (cache : Cache) (info : FileInfo) : Prop :=
  ∀ x ∈ checkFile o cache info, x.isFixable = true

/-- What a fix does to a line: it deletes one that repeats a target, or puts the checksum that
`amend` says into it. -/
def Revising (s : TagSyntax) (resolve : Text → Resolved) (amend : Tag.Start → Option Text)
    (before : List Line) (line : Line) (fix : Fix) : Prop :=
  ∃ tag, s.classify line.text = .start tag ∧
    (repeats resolve (stateAfter s resolve (before.map Line.raw)) tag = true ∧
        fix.isDelete = true ∨
      ∃ checksum, amend tag = some checksum ∧ ∃ number description declaration,
        fix = .replace number (tag.render checksum tag.target) description declaration)

variable {d : Disk} {o : Options} {cache : Cache} {info : FileInfo} {path : Path}
  {lines : List Line}

theorem Fixable.isFixable_of_present (h : Fixable o cache info) {x : Diagnostic}
    (hx : x ∈ info.problems) (hp : x.problem ≠ .fileDoesNotExist) : x.isFixable = true := by
  have hm : migrates o info x = false := by simp [migrates, hp]
  exact h x (mem_checkFile.mpr (.inl ⟨hx, hm⟩))

theorem Fixable.isFixable (h : Fixable o cache info) (ho : o.Settled) {x : Diagnostic}
    (hx : x ∈ info.problems) : x.isFixable = true :=
  h x (mem_checkFile.mpr (.inl ⟨hx, migrates_of_settled ho x⟩))

theorem Fixable.onlyRepeats (h : Fixable o cache info) (ho : o.Settled)
    (hr : Records d o path lines info) : OnlyRepeats (Scan.eventsOf d o path lines) := by
  intro x hx
  have hmem : x ∈ info.problems := hr.problems_eq ▸ Scan.mem_problemsOf.mpr (.inl hx)
  exact (Block.repeats_of_events hx (h.isFixable ho hmem)).1

theorem checkDeclaration_of_return (ho : o.Settled) {y : Declaration}
    (hm : info.markers.find? y.id = some y.marker)
    (hreturn : ∀ path, y.target.kind = .file path →
      ∃ other, returnMarker? cache info y.id path = some other) :
    checkDeclaration o cache info y =
      checkChecksum o.tagSyntax y (expected cache info y.id y.target.kind) := by
  unfold checkDeclaration expected
  cases hk : y.target.kind with
  | remote url =>
    dsimp only
    rw [hm]
    rfl
  | file path =>
    obtain ⟨other, hother⟩ := hreturn path hk
    dsimp only
    rw [checkFileTarget_of_settled ho, hother]
    rfl

theorem Fixable.exists_return (h : Fixable o cache info) (ho : o.Settled) {y : Declaration}
    (hm : info.markers.find? y.id = some y.marker)
    (ht : y.marker.targets.find? y.line = some y.target) {path : Text}
    (hk : y.target.kind = .file path) :
    ∃ other, returnMarker? cache info y.id path = some other := by
  cases hreturn : returnMarker? cache info y.id path with
  | some other => exact ⟨other, rfl⟩
  | none =>
    have hx : noReturnTag y ∈ checkFile o cache info := by
      refine mem_checkFile.mpr (.inr ⟨y, ⟨hm, ht⟩, ?_⟩)
      rw [checkDeclaration, hk]
      dsimp only
      rw [checkFileTarget_of_settled ho, hreturn]
    have := h _ hx
    simp [noReturnTag, Diagnostic.onLine, Diagnostic.isFixable] at this

theorem Fixable.checkDeclaration_eq (h : Fixable o cache info) (ho : o.Settled) {y : Declaration}
    (hm : info.markers.find? y.id = some y.marker)
    (ht : y.marker.targets.find? y.line = some y.target) :
    checkDeclaration o cache info y =
      checkChecksum o.tagSyntax y (expected cache info y.id y.target.kind) :=
  checkDeclaration_of_return ho hm fun _ hk => h.exists_return ho hm ht hk

/-- What is wrong with a whole block cannot be repaired. -/
theorem isFixable_blockProblems {at_ : Scan.Setting} {again : Bool} {b : Block} {x : Diagnostic}
    (h : x ∈ Scan.blockProblems d at_ again b) : x.isFixable = false := by
  rcases (Scan.mem_blockProblems.mp h).2 with h | ⟨-, rfl⟩ | ⟨-, rfl⟩
  · obtain ⟨e, -, text, -, -, rfl⟩ := Scan.mem_selfTargets.mp h
    rfl
  · rfl
  · rfl

theorem checkChecksum_fix {s : TagSyntax} {y : Declaration} {want : Text} {x : Diagnostic}
    {tag : Tag.Start} (h : checkChecksum s y want = some x)
    (hc : s.classify y.target.declaration = .start tag) :
    y.recorded ≠ want ∧ ∃ description, x.fix = some (.replace y.line
      (tag.render (written want) tag.target) description y.target.declaration) := by
  obtain ⟨hne, rfl⟩ := checkChecksum_eq_some.mp h
  refine ⟨hne, ?_⟩
  simp only [mismatchedChecksum, TagSyntax.withChecksum?, hc, Option.map_some]
  exact ⟨_, rfl⟩

theorem mem_fixes {k : Text} {fix : Fix} :
    fix ∈ (FileReport.mk k (checkFile o cache info)).fixes ↔
      ∃ x ∈ checkFile o cache info, x.fix = some fix :=
  List.mem_filterMap

/-- Where a fix comes from: a line repeats a target, or something is wrong with a stored
declaration. -/
theorem exists_line_of_fix (hr : Records d o path lines info) {x : Diagnostic}
    (hx : x ∈ checkFile o cache info) {fix : Fix} (hfix : x.fix = some fix) :
    ∃ pre line post tag, lines = pre ++ line :: post ∧
      o.tagSyntax.classify line.text = .start tag ∧
      fits (pre.length + 1) line.text fix = true ∧
      (repeats (resolverOf d o path)
          (stateAfter o.tagSyntax (resolverOf d o path) (pre.map Line.raw)) tag = true ∧
          fix.isDelete = true ∨
        ∃ y : Declaration, info.markers.find? y.id = some y.marker ∧
          y.marker.targets.find? y.line = some y.target ∧ tag.id = y.id ∧
          y.target = targetOf (resolverOf d o path) tag line.raw ∧
          checkDeclaration o cache info y = some x) := by
  rcases mem_checkFile.mp hx with ⟨hx, -⟩ | ⟨y, ⟨hm, ht⟩, hy⟩
  · have hf : x.isFixable = true := by rw [Diagnostic.isFixable, hfix]; rfl
    rw [hr.problems_eq] at hx
    rcases Scan.mem_problemsOf.mp hx with hx | ⟨pre, b, post, -, hx⟩
    · obtain ⟨-, pre, line, post, tag, description, hl, hc, hrep, he⟩ :=
        Block.exists_repeat_of_events (Disk.cut_of_lines hr.lines_eq).2 hx hf
      obtain rfl := Option.some.inj (hfix.symm.trans he)
      exact ⟨pre, line, post, tag, hl, hc, Repair.fits_iff.mpr ⟨rfl, rfl⟩, .inl ⟨hrep, rfl⟩⟩
    · rw [isFixable_blockProblems hx] at hf
      simp at hf
  · obtain ⟨i, line, tag, hn, hi, hc, hid, htarget⟩ := hr.exists_start hm ht
    obtain ⟨hlt, hget⟩ := List.getElem?_eq_some_iff.mp hi
    have hsplit : lines = lines.take i ++ line :: lines.drop (i + 1) := by
      rw [← hget, List.getElem_cons_drop, List.take_append_drop]
    have hlen : (lines.take i).length = i := by
      rw [List.length_take]
      omega
    have hdecl : y.target.declaration = line.text := by
      rw [htarget, targetOf, Disk.ofRaw_raw_of_lines hr.lines_eq (List.mem_of_getElem? hi)]
    obtain ⟨text, description, rfl⟩ := fix_of_checkDeclaration hy hfix
    have hfits : fits ((lines.take i).length + 1) line.text
        (.replace y.line text description y.target.declaration) = true := by
      rw [hlen]
      exact Repair.fits_iff.mpr ⟨hn, hdecl⟩
    exact ⟨lines.take i, line, lines.drop (i + 1), tag, hsplit, hc, hfits,
      .inr ⟨y, hm, ht, hid, htarget, hy⟩⟩

/-- All fixes of a file apply. -/
theorem applied_eq (hr : Records d o path lines info) (cache : Cache) (k : Text) :
    (Repair.rewrite lines (FileReport.mk k (checkFile o cache info)).fixes).applied =
      (FileReport.mk k (checkFile o cache info)).fixes.length := by
  refine Repair.applied_of_fits fun fix hm => ?_
  obtain ⟨x, hx, hfix⟩ := mem_fixes.mp hm
  obtain ⟨pre, line, post, tag, hl, -, hf, -⟩ := exists_line_of_fix hr hx hfix
  exact ⟨pre, line, post, hl, hf⟩

theorem Fixable.fix_cases (h : Fixable o cache info) (ho : o.Settled)
    (hr : Records d o path lines info) {x : Diagnostic} (hx : x ∈ checkFile o cache info)
    {fix : Fix} (hfix : x.fix = some fix) :
    ∃ pre line post, lines = pre ++ line :: post ∧ fits (pre.length + 1) line.text fix = true ∧
      Revising o.tagSyntax (resolverOf d o path)
        (amendment (resolverOf d o path) (expected cache info)) pre line fix := by
  obtain ⟨pre, line, post, tag, hl, hc, hf, ⟨hrep, hdelete⟩ | ⟨y, hm, ht, hid, htarget, hy⟩⟩ :=
    exists_line_of_fix hr hx hfix
  · exact ⟨pre, line, post, hl, hf, tag, hc, .inl ⟨hrep, hdelete⟩⟩
  · have hline : line ∈ lines := by simp [hl]
    have hdecl : y.target.declaration = line.text := by
      rw [htarget, targetOf, Disk.ofRaw_raw_of_lines hr.lines_eq hline]
    have hkind : y.target.kind = (resolverOf d o path tag.target).kind := by rw [htarget]; rfl
    have hrecorded : y.recorded = tag.checksum.getD Checksum.absent := by
      rw [Declaration.recorded, htarget]
      rfl
    rw [h.checkDeclaration_eq ho hm ht] at hy
    obtain ⟨hne, description, he⟩ := checkChecksum_fix hy (hdecl ▸ hc)
    obtain rfl := Option.some.inj (hfix.symm.trans he)
    refine ⟨pre, line, post, hl, hf, tag, hc, .inr ⟨_, ?_, y.line, description, _, rfl⟩⟩
    rw [hrecorded, hkind, ← hid] at hne
    rw [amendment, if_neg hne, hkind, ← hid]

theorem exists_delete (cache : Cache) (ho : o.Settled) (hr : Records d o path lines info)
    {pre post : List Line} {line : Line} (hl : lines = pre ++ line :: post) {tag : Tag.Start}
    (hc : o.tagSyntax.classify line.text = .start tag)
    (hrep : repeats (resolverOf d o path)
      (stateAfter o.tagSyntax (resolverOf d o path) (pre.map Line.raw)) tag = true) :
    ∃ x ∈ checkFile o cache info, ∃ fix, x.fix = some fix ∧
      fits (pre.length + 1) line.text fix = true ∧ fix.isDelete = true := by
  have hw := (Disk.cut_of_lines hr.lines_eq).2 line (by simp [hl])
  obtain ⟨x, description, hx, hfix⟩ := Block.exists_event_of_repeats hw hc hrep
  rw [← hl] at hx
  refine ⟨x, mem_checkFile.mpr (.inl ⟨?_, migrates_of_settled ho x⟩), _, hfix,
    Repair.fits_iff.mpr ⟨rfl, rfl⟩, rfl⟩
  rw [hr.problems_eq]
  exact Scan.mem_problemsOf.mpr (.inl hx)

theorem Fixable.exists_replace (h : Fixable o cache info) (ho : o.Settled)
    (hr : Records d o path lines info) {pre post : List Line} {line : Line}
    (hl : lines = pre ++ line :: post) {tag : Tag.Start}
    (hc : o.tagSyntax.classify line.text = .start tag) {checksum : Text}
    (ha : amendment (resolverOf d o path) (expected cache info) tag = some checksum) :
    ∃ x ∈ checkFile o cache info, ∃ fix, x.fix = some fix ∧
      fits (pre.length + 1) line.text fix = true := by
  have hopen : ∀ n id, Diagnostic.startTagWithoutEndTag n id ∉ info.problems := by
    intro n id hx
    exact Bool.false_ne_true (h.isFixable ho hx)
  have hdup : ∀ n id, Diagnostic.duplicateMarker n id ∉ info.problems := by
    intro n id hx
    exact Bool.false_ne_true (h.isFixable ho hx)
  have hi : lines[pre.length]? = some line := by simp [hl]
  obtain ⟨first, last, b, -, -, -, -, -, hm, ht⟩ := hr.exists_block hopen hdup hi hc
  let y : Declaration := ⟨tag.id, Scan.markerOf (Scan.settingOf d o path).relative b,
    pre.length + 1, targetOf (resolverOf d o path) tag line.raw⟩
  have hdecl : y.target.declaration = line.text := by
    change (Line.ofRaw line.raw).text = line.text
    rw [Disk.ofRaw_raw_of_lines hr.lines_eq (List.mem_of_getElem? hi)]
  have hne : y.recorded ≠ expected cache info y.id y.target.kind := by
    intro he
    have hnone : amendment (resolverOf d o path) (expected cache info) tag = none := if_pos he
    simp [hnone] at ha
  obtain ⟨x, hx⟩ : ∃ x, checkDeclaration o cache info y = some x := by
    rw [h.checkDeclaration_eq ho hm ht]
    exact ⟨_, checkChecksum_eq_some.mpr ⟨hne, rfl⟩⟩
  have hcheck := (h.checkDeclaration_eq ho hm ht).symm.trans hx
  obtain ⟨-, description, hfix⟩ := checkChecksum_fix hcheck (hdecl ▸ hc)
  exact ⟨x, mem_checkFile.mpr (.inr ⟨y, ⟨hm, ht⟩, hx⟩), _, hfix,
    Repair.fits_iff.mpr ⟨rfl, hdecl⟩⟩

theorem Fixable.fix_of_fits (h : Fixable o cache info) (ho : o.Settled)
    (hr : Records d o path lines info) {pre post : List Line} {line : Line}
    (hl : lines = pre ++ line :: post) {k : Text} {fix : Fix}
    (hm : fix ∈ (FileReport.mk k (checkFile o cache info)).fixes)
    (hf : fits (pre.length + 1) line.text fix = true) :
    Revising o.tagSyntax (resolverOf d o path)
      (amendment (resolverOf d o path) (expected cache info)) pre line fix := by
  obtain ⟨x, hx, hfix⟩ := mem_fixes.mp hm
  obtain ⟨pre', line', post', hl', hf', hrev⟩ := h.fix_cases ho hr hx hfix
  have hlen : pre'.length = pre.length := by
    have := (Repair.fits_iff.mp hf).1
    have := (Repair.fits_iff.mp hf').1
    omega
  obtain ⟨rfl, he⟩ := List.append_inj (hl'.symm.trans hl) hlen
  obtain ⟨rfl, -⟩ := List.cons.inj he
  exact hrev

/-- Fixes that revise a line make of it what its revision is, unless one that it needs is missing. -/
theorem rewriteLine_of_revising {s : TagSyntax} {resolve : Text → Resolved}
    {amend : Tag.Start → Option Text} {before : List Line} {line : Line} {matched : List Fix}
    (hrev : ∀ fix ∈ matched, Revising s resolve amend before line fix)
    (hdelete : ∀ tag, s.classify line.text = .start tag →
      repeats resolve (stateAfter s resolve (before.map Line.raw)) tag = true →
        matched.any Fix.isDelete = true)
    (hreplace : ∀ tag, s.classify line.text = .start tag → amend tag ≠ none → matched ≠ []) :
    rewriteLine matched line =
      (reviseLine s resolve amend (stateAfter s resolve (before.map Line.raw)) line).flatMap
        Line.raw := by
  have hkeep : matched = [] → rewriteLine matched line = [line].flatMap Line.raw := by
    rintro rfl
    simp [rewriteLine]
  unfold reviseLine
  split
  next tag hc =>
    by_cases hrep : repeats resolve (stateAfter s resolve (before.map Line.raw)) tag = true
    · rw [if_pos hrep, rewriteLine, if_pos (hdelete tag hc hrep)]
      rfl
    · -- only replacements are left, and all of them write the same checksum
      have hall : ∀ fix ∈ matched, ∃ checksum, amend tag = some checksum ∧
          ∃ number description declaration,
            fix = .replace number (tag.render checksum tag.target) description declaration := by
        intro fix hm
        obtain ⟨tag', hc', hcase⟩ := hrev fix hm
        obtain rfl := Tag.Line.start.inj (hc.symm.trans hc')
        exact hcase.resolve_left fun hd => hrep hd.1
      rw [if_neg hrep]
      cases ha : amend tag with
      | none =>
        rw [amendLine, ha]
        refine hkeep (List.eq_nil_iff_forall_not_mem.mpr fun fix hm => ?_)
        obtain ⟨checksum, hsome, -⟩ := hall fix hm
        simp [ha] at hsome
      | some checksum =>
        have hany : ¬matched.any Fix.isDelete = true := by
          intro hd
          obtain ⟨fix, hm, hd⟩ := List.any_eq_true.mp hd
          obtain ⟨_, -, _, _, _, rfl⟩ := hall fix hm
          simp [Fix.isDelete] at hd
        obtain ⟨first, rest, rfl⟩ :=
          List.exists_cons_of_ne_nil (hreplace tag hc (by simp [ha]))
        obtain ⟨checksum', hsome, number, description, declaration, rfl⟩ := hall first (by simp)
        obtain rfl := Option.some.inj (ha.symm.trans hsome)
        rw [rewriteLine, if_neg hany, amendLine, ha]
        simp [Line.raw]
  next hno =>
    refine hkeep (List.eq_nil_iff_forall_not_mem.mpr fun fix hm => ?_)
    obtain ⟨tag, hc, -⟩ := hrev fix hm
    exact hno tag hc

theorem Fixable.revisesAt (h : Fixable o cache info) (ho : o.Settled)
    (hr : Records d o path lines info) {pre post : List Line} {line : Line}
    (hl : lines = pre ++ line :: post) (k : Text) :
    RevisesAt o.tagSyntax (resolverOf d o path)
      (amendment (resolverOf d o path) (expected cache info))
      (FileReport.mk k (checkFile o cache info)).fixes pre line := by
  apply rewriteLine_of_revising
  · intro fix hm
    obtain ⟨hfix, hf⟩ := List.mem_filter.mp hm
    exact h.fix_of_fits ho hr hl hfix hf
  · intro tag hc hrep
    obtain ⟨x, hx, fix, hfix, hf, hdelete⟩ := exists_delete cache ho hr hl hc hrep
    exact List.any_eq_true.mpr
      ⟨fix, List.mem_filter.mpr ⟨mem_fixes.mpr ⟨x, hx, hfix⟩, hf⟩, hdelete⟩
  · intro tag hc ha
    obtain ⟨checksum, ha⟩ := Option.ne_none_iff_exists'.mp ha
    obtain ⟨x, hx, fix, hfix, hf⟩ := h.exists_replace ho hr hl hc ha
    exact List.ne_nil_of_mem (List.mem_filter.mpr ⟨mem_fixes.mpr ⟨x, hx, hfix⟩, hf⟩)

/-- All repairs of the file apply. -/
theorem Fixable.rewrite_eq (h : Fixable o cache info) (ho : o.Settled)
    (hr : Records d o path lines info) (k : Text) :
    Repair.rewrite lines (FileReport.mk k (checkFile o cache info)).fixes =
      ⟨(FileReport.mk k (checkFile o cache info)).fixes.length,
        (repairedLines d o cache path info lines).flatMap Line.raw⟩ := by
  have houtput := Repair.output_of_revisesAt fun _ _ _ hl => h.revisesAt ho hr hl k
  rw [← applied_eq hr cache k]
  exact congrArg (Repair.Rewritten.mk _) houtput

end BlockSync.Check
