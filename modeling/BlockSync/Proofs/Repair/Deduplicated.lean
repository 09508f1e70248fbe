import BlockSync.Proofs.Repair.Revised

/-! Repeated targets deleted. The fixes that reading lines suggests for repeated targets delete just
the lines that repeat one. What is left repeats no target and completes the same blocks, each with
the first declaration of each of its targets. -/

namespace BlockSync.Repair

open Block (Event RevisesBlock amendTarget completed events repeats reviseLine stateAfter)
open Line (Whole)
open Text.Utf8 (Bytes encode)

/-- The fixes of the repeated targets among the events. -/
def deletions (events : List Event) : List Fix :=
  events.filterMap fun
    | .problem x => if x.problem = .duplicateTarget then x.fix else none
    | .completed _ => none

/-- The same block up to line numbers, with the first declaration of each target and no other. -/
structure Thins (b b' : Block) : Prop where
  id_eq : b'.id = b.id
  content_eq : b'.content = b.content
  comment_eq : b'.comment = b.comment
  sublist : b'.targets.values.Sublist b.targets.values
  first : ∀ kind, b'.targets.values.filter (·.kind == kind) =
    (b.targets.values.find? (·.kind == kind)).toList

/-- The second lines are what the fixes of the repeated targets make of the first ones. -/
structure Deduplicates (s : TagSyntax) (resolve : Text → Resolved) (lines lines' : List Line) :
    Prop where
  deletes : ∀ fix ∈ deletions (events s resolve (lines.map Line.raw)), fix.isDelete = true
  applied : (rewrite lines (deletions (events s resolve (lines.map Line.raw)))).applied =
    (deletions (events s resolve (lines.map Line.raw))).length
  distinct : ∀ x, Event.problem x ∈ events s resolve (lines'.map Line.raw) →
    x.problem ≠ .duplicateTarget
  completed : List.Forall₂ Thins (completed (events s resolve (lines.map Line.raw)))
    (completed (events s resolve (lines'.map Line.raw)))

variable {s : TagSyntax} {resolve : Text → Resolved} {lines pre post : List Line} {line : Line}

theorem mem_deletions {events : List Event} {fix : Fix} : fix ∈ deletions events ↔
    ∃ x, Event.problem x ∈ events ∧ x.problem = .duplicateTarget ∧ x.fix = some fix := by
  simp only [deletions, List.mem_filterMap]
  constructor
  · rintro ⟨event, hm, hf⟩
    cases event with
    | completed b => simp at hf
    | problem x =>
      dsimp only at hf
      split at hf
      next hx => exact ⟨x, hm, hx, hf⟩
      next => simp at hf
  · rintro ⟨x, hm, hx, hf⟩
    exact ⟨_, hm, by simp [hx, hf]⟩

/-- A deletion is of a line that repeats a target. -/
theorem exists_repeat_of_mem (hw : ∀ line ∈ lines, Whole line) {fix : Fix}
    (h : fix ∈ deletions (events s resolve (lines.map Line.raw))) :
    ∃ pre line post tag description, lines = pre ++ line :: post ∧
      s.classify line.text = .start tag ∧
      repeats resolve (stateAfter s resolve (pre.map Line.raw)) tag = true ∧
      fix = .delete (pre.length + 1) description line.text := by
  obtain ⟨x, hx, -, hfix⟩ := mem_deletions.mp h
  have hf : x.isFixable = true := by rw [Diagnostic.isFixable, hfix]; rfl
  obtain ⟨-, pre, line, post, tag, description, hl, hc, hrep, he⟩ :=
    Block.exists_repeat_of_events hw hx hf
  exact ⟨pre, line, post, tag, description, hl, hc, hrep, Option.some.inj (hfix.symm.trans he)⟩

/-- A line that repeats a target is deleted. -/
theorem exists_mem_of_repeats (hw : ∀ line ∈ lines, Whole line) (hl : lines = pre ++ line :: post)
    {tag : Tag.Start} (hc : s.classify line.text = .start tag)
    (hrep : repeats resolve (stateAfter s resolve (pre.map Line.raw)) tag = true) :
    ∃ description, Fix.delete (pre.length + 1) description line.text ∈
      deletions (events s resolve (lines.map Line.raw)) := by
  obtain ⟨x, description, hx, hfix⟩ :=
    Block.exists_event_of_repeats (hw line (by simp [hl])) hc hrep
  rw [← hl] at hx
  have hf : x.isFixable = true := by rw [Diagnostic.isFixable, hfix]; rfl
  have hproblem := (Block.exists_repeat_of_events hw hx hf).1
  exact ⟨description, mem_deletions.mpr ⟨x, hx, hproblem, hfix⟩⟩

/-- The deletions of a line delete it if it repeats a target, and there are none if it does not. -/
theorem revisesAt_deletions (hw : ∀ line ∈ lines, Whole line) (hl : lines = pre ++ line :: post) :
    RevisesAt s resolve (fun _ => none) (deletions (events s resolve (lines.map Line.raw)))
      pre line := by
  unfold RevisesAt
  by_cases hrep : ∃ tag, s.classify line.text = .start tag ∧
      repeats resolve (stateAfter s resolve (pre.map Line.raw)) tag = true
  · obtain ⟨tag, hc, hrep⟩ := hrep
    obtain ⟨description, hm⟩ := exists_mem_of_repeats hw hl hc hrep
    have hdelete : ((deletions (events s resolve (lines.map Line.raw))).filter
        (fits (pre.length + 1) line.text)).any Fix.isDelete = true :=
      List.any_eq_true.mpr ⟨_, List.mem_filter.mpr ⟨hm, fits_iff.mpr ⟨rfl, rfl⟩⟩, rfl⟩
    rw [rewriteLine, if_pos hdelete, reviseLine, hc]
    dsimp only
    rw [if_pos hrep]
    rfl
  · have hnone : (deletions (events s resolve (lines.map Line.raw))).filter
        (fits (pre.length + 1) line.text) = [] := by
      refine List.filter_eq_nil_iff.mpr fun fix hm hf => hrep ?_
      obtain ⟨pre', line', post', tag, description, hl', hc, hrep', rfl⟩ :=
        exists_repeat_of_mem hw hm
      have hlen : pre'.length = pre.length := Nat.succ.inj (fits_iff.mp hf).1
      obtain ⟨rfl, he⟩ := List.append_inj (hl'.symm.trans hl) hlen
      obtain ⟨rfl, -⟩ := List.cons.inj he
      exact ⟨tag, hc, hrep'⟩
    have hkeep : reviseLine s resolve (fun _ => none)
        (stateAfter s resolve (pre.map Line.raw)) line = [line] := by
      unfold reviseLine
      split
      next tag hc =>
        rw [if_neg fun h => hrep ⟨tag, hc, h⟩]
        rfl
      next => rfl
    rw [hnone, hkeep]
    simp [rewriteLine]

theorem amendTarget_none (t : Target) : amendTarget s (fun _ => none) t = t := by
  unfold amendTarget
  split <;> rfl

theorem thins_of_revisesBlock {b b' : Block} (h : RevisesBlock s (fun _ => none) b b') :
    Thins b b' := by
  obtain ⟨hid, hrev⟩ := h
  have hvalues : b'.targets.values = Block.firsts b.targets.values := by
    have hv := hrev.values_eq
    rwa [funext amendTarget_none, List.map_id'] at hv
  refine ⟨hid, hrev.content_eq, hrev.comment_eq, ?_, fun kind => ?_⟩
  · rw [hvalues]
    exact Block.firsts_sublist _
  · rw [hvalues, Block.filter_firsts]

/-- Whatever else is wrong with the lines of a file, deleting the repeated targets leaves lines that
repeat none and complete the same blocks, each with the first declaration of each target. -/
theorem exists_deduplicates (s : TagSyntax) (resolve : Text → Resolved) (bytes : Bytes) :
    let lines := (Line.read bytes).lines
    ∃ lines', Line.read (encode
        (rewrite lines (deletions (events s resolve (lines.map Line.raw)))).output) =
          ⟨lines', none⟩ ∧
      Deduplicates s resolve lines lines' := by
  intro lines
  have hcut : Line.Cut lines := Line.cut_read bytes
  have hsound : ∀ line ∈ lines, Block.Sound s (fun _ => none) line :=
    fun line hl => ⟨hcut.2 line hl, by simp⟩
  have hstays : ∀ line ∈ lines, Block.Restarts s resolve (fun _ => none) line :=
    fun line hl => Block.restarts_none (hcut.2 line hl)
  have hfollows := Block.follows_revise hstays
  have hrevises : ∀ pre line post, lines = pre ++ line :: post →
      RevisesAt s resolve (fun _ => none) (deletions (events s resolve (lines.map Line.raw)))
        pre line :=
    fun _ _ _ hl => revisesAt_deletions hcut.2 hl
  have houtput := output_of_revisesAt hrevises
  refine ⟨_, by rw [houtput]; exact (Block.cut_revise hcut hsound .initial).read_encode, ?_⟩
  constructor
  case deletes =>
    intro fix hm
    obtain ⟨_, _, _, _, _, -, -, -, rfl⟩ := exists_repeat_of_mem hcut.2 hm
    rfl
  case applied =>
    refine applied_of_fits fun fix hm => ?_
    obtain ⟨pre, line, post, _, _, hl, -, -, rfl⟩ := exists_repeat_of_mem hcut.2 hm
    exact ⟨pre, line, post, hl, fits_iff.mpr ⟨rfl, rfl⟩⟩
  case distinct => exact fun x hx => (hfollows.told x hx).1
  case completed => exact hfollows.completed.imp fun _ _ h => thins_of_revisesBlock h

/-- The second of three declarations repeats the target of the first, and the block keeps the two
others. -/
theorem exists_deduplicates_twice :
    let resolve : Text → Resolved := fun reference => ⟨.remote reference, true⟩
    let text : Text := "# sync-start:m 1 b\n# sync-start:m b\n# sync-start:m c\nx\n# sync-end:m\n"
    let lines := (Line.read (encode text)).lines
    let block : List Text × List Text := (["x\n"], ["# sync-start:m 1 b", "# sync-start:m c"])
    (deletions (events default resolve (lines.map Line.raw))).map Fix.line = [2] ∧
      Deduplicates default resolve lines (lines.eraseIdx 1) ∧
        (completed (events default resolve ((lines.eraseIdx 1).map Line.raw))).map
          (fun b => (b.content, b.targets.values.map Target.declaration)) = [block] := by
  intro resolve text lines block
  obtain ⟨lines', hread, hdeduplicates⟩ := exists_deduplicates default resolve (encode text)
  have hlines : (Line.read (encode (rewrite lines
      (deletions (events default resolve (lines.map Line.raw)))).output)).lines =
        lines.eraseIdx 1 := by
    decide +kernel
  obtain rfl : lines' = lines.eraseIdx 1 := (congrArg Line.Reading.lines hread).symm.trans hlines
  exact ⟨by decide +kernel, hdeduplicates, by decide +kernel⟩

end BlockSync.Repair
