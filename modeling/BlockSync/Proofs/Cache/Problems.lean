import BlockSync.Proofs.Cache.Entry

/-! Which problems reading a file can find: those of lines and those of completed blocks. Those that
compare files with each other are none of them. -/

namespace BlockSync

namespace Problem

def isParsed : Problem → Bool
  | .mismatchedChecksum | .noReturnTag | .pendingMigration => false
  | _ => true

/-- Whether a problem is found in a line. -/
def isTagged : Problem → Bool
  | .malformedStartTag | .malformedEndTag | .endTagWithoutStartTag | .startTagWithoutEndTag
  | .startTagAfterContent | .differentCommentSyntax | .duplicateTarget | .fileDoesNotExist => true
  | _ => false

/-- Whether a problem is found in a completed block. -/
def isNoted : Problem → Bool
  | .selfTargeting | .duplicateMarker | .emptyMarker => true
  | _ => false

theorem isParsed_of_isTagged {p : Problem} (h : p.isTagged = true) : p.isParsed = true := by
  cases p <;> first | rfl | exact h

theorem isParsed_of_isNoted {p : Problem} (h : p.isNoted = true) : p.isParsed = true := by
  cases p <;> first | rfl | exact h

theorem isNoted_of_isTagged {p : Problem} (h : p.isTagged = true) : p.isNoted = false := by
  cases p <;> first | rfl | exact absurd h Bool.false_ne_true

end Problem

namespace Block

variable {s : TagSyntax} {resolve : Text → Resolved}

theorem isTagged_feed {state : State} {raw : Text} {x : Diagnostic}
    (h : Event.problem x ∈ (feed s resolve state raw).2) : x.problem.isTagged = true := by
  rcases problem_of_feed h with ⟨tag, -, hx⟩ | ⟨id, rfl⟩ | ⟨fault, rfl | rfl⟩
  · rcases mem_declarationProblems hx with ⟨span, rfl⟩ | ⟨-, span, -, rfl⟩ | rfl | rfl
    all_goals rfl
  all_goals rfl

theorem isTagged_events {lines : List Text} {x : Diagnostic}
    (h : Event.problem x ∈ events s resolve lines) : x.problem.isTagged = true := by
  rcases List.mem_append.mp h with h | h
  · obtain ⟨_, _, _, -, h⟩ := mem_feedAll.mp h
    exact isTagged_feed h
  · obtain ⟨id, block, line, -, -, he⟩ := mem_finish.mp h
    exact Event.problem.inj he ▸ rfl

theorem firstLine_mem {b : Block} (h : b.targets.isEmpty = false) :
    b.firstLine ∈ b.targets.keys := by
  obtain ⟨e, rest, he⟩ := List.exists_cons_of_ne_nil
    (mt SortedMap.isEmpty_iff.mpr (Bool.eq_false_iff.mp h))
  rw [firstLine, SortedMap.keys, he]
  exact List.mem_cons_self

end Block

namespace Scan

open Block (Event completed)

variable {d : Disk} {at_ : Setting}

theorem mem_selfTargets {path : Path} {id : Text} {targets : List (Nat × Target)} {x : Diagnostic} :
    x ∈ selfTargets d path id targets ↔ ∃ e ∈ targets, ∃ text, e.2.kind = .file text ∧
      targetsSelf d path text = true ∧ x = .selfTargeting e.1 id := by
  simp only [selfTargets, List.mem_filterMap]
  constructor
  · rintro ⟨e, he, h⟩
    split at h
    next text hk =>
      split at h
      next hs => exact ⟨e, he, text, hk, hs, (Option.some.inj h).symm⟩
      next => simp at h
    next => simp at h
  · rintro ⟨e, he, text, hk, hs, rfl⟩
    exact ⟨e, he, by simp [hk, hs]⟩

theorem mem_blockProblems {again : Bool} {b : Block} {x : Diagnostic} :
    x ∈ blockProblems d at_ again b ↔ b.targets.isEmpty = false ∧
      (x ∈ selfTargets d at_.path b.id b.targets.entries ∨
        again = true ∧ x = .duplicateMarker b.firstLine b.id ∨
        (b.content.isEmpty && !at_.allowEmpty) = true ∧ x = .emptyMarker b.firstLine b.id) := by
  unfold blockProblems
  by_cases he : b.targets.isEmpty = true
  · simp [he]
  · simp only [he, if_false, Bool.false_eq_true, List.mem_append, true_and]
    refine or_congr_right (or_congr ?_ ?_) <;> split <;> simp [*]

theorem problem_of_mem_selfTargets {path : Path} {id : Text} {targets : List (Nat × Target)}
    {x : Diagnostic} (h : x ∈ selfTargets d path id targets) : x.problem = .selfTargeting := by
  obtain ⟨e, -, text, -, -, rfl⟩ := mem_selfTargets.mp h
  rfl

theorem isNoted_blockProblems {again : Bool} {b : Block} {x : Diagnostic}
    (h : x ∈ blockProblems d at_ again b) : x.problem.isNoted = true := by
  rcases (mem_blockProblems.mp h).2 with h | ⟨-, rfl⟩ | ⟨-, rfl⟩
  · rw [problem_of_mem_selfTargets h]
    rfl
  · rfl
  · rfl

theorem mem_problemsOf {before : List Block} {events : List Event} {x : Diagnostic} :
    x ∈ problemsOf d at_ before events ↔ Event.problem x ∈ events ∨
      ∃ pre b post, events = pre ++ .completed b :: post ∧
        x ∈ blockProblems d at_ (declares (before ++ completed pre) b.id) b := by
  induction events generalizing before with
  | nil => simp [problemsOf]
  | cons event events ih =>
    cases event with
    | problem y =>
      simp only [problemsOf, List.mem_cons, ih, Event.problem.injEq]
      rw [or_assoc]
      refine or_congr_right (or_congr_right ⟨?_, ?_⟩)
      · rintro ⟨pre, b, post, rfl, h⟩
        exact ⟨.problem y :: pre, b, post, rfl, by simpa [completed] using h⟩
      · rintro ⟨pre, b, post, he, h⟩
        cases pre with
        | nil => simp at he
        | cons _ pre =>
          obtain ⟨rfl, rfl⟩ := List.cons.inj he
          exact ⟨pre, b, post, rfl, by simpa [completed] using h⟩
    | completed c =>
      simp only [problemsOf, List.mem_cons, List.mem_append, ih, reduceCtorEq, false_or]
      constructor
      · rintro (h | h | ⟨pre, b, post, rfl, h⟩)
        · exact .inr ⟨[], c, events, rfl, by simpa [completed] using h⟩
        · exact .inl h
        · exact .inr ⟨.completed c :: pre, b, post, rfl, by simpa [completed] using h⟩
      · rintro (h | ⟨pre, b, post, he, h⟩)
        · exact .inr (.inl h)
        · cases pre with
          | nil =>
            obtain ⟨hc, rfl⟩ := List.cons.inj he
            obtain rfl := Event.completed.inj hc
            exact .inl (by simpa [completed] using h)
          | cons _ pre =>
            obtain ⟨rfl, rfl⟩ := List.cons.inj he
            exact .inr (.inr ⟨pre, b, post, rfl, by simpa [completed] using h⟩)

theorem isParsed_scan {o : Options} {path : Path} {readOnly : Bool} {x : Diagnostic}
    (h : x ∈ (scan d o path readOnly).info.problems) : x.problem.isParsed = true := by
  rcases hl : d.lines path with cause | ⟨lines, cause | cause⟩
  · simp only [scan, hl, unreadable, List.mem_singleton] at h
    exact h ▸ rfl
  · simp only [scan_info_of_lines hl] at h
    rcases mem_problemsOf.mp h with h | ⟨pre, b, post, -, h⟩
    · exact Problem.isParsed_of_isTagged (Block.isTagged_events h)
    · exact Problem.isParsed_of_isNoted (isNoted_blockProblems h)
  · simp only [scan, hl, unreadable, List.mem_singleton] at h
    exact h ▸ rfl

end Scan

end BlockSync
