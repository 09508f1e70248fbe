import BlockSync.Proofs.Block.Span

/-! What one more line does, and what many lines do one after another. -/

namespace BlockSync.Block

variable {s : TagSyntax} {resolve : Text → Resolved} {state : State} {raw : Text} {x : Diagnostic}

/-- What a start tag declares. -/
def targetOf (resolve : Text → Resolved) (tag : Tag.Start) (raw : Text) : Target :=
  ⟨tag.target, (resolve tag.target).kind, tag.checksum, (Line.ofRaw raw).text⟩

/-- The open block that a start tag adds to, or the new one that it opens. -/
def blockFor (state : State) (tag : Tag.Start) : Opened :=
  (state.opened.find? tag.id).getD ⟨[], ∅, tag.style⟩

theorem feed_of_start {tag : Tag.Start} (h : reads s raw = .start tag) :
    feed s resolve state raw =
      (⟨state.line + 1, state.opened.insert tag.id
          { blockFor state tag with
            targets :=
              (blockFor state tag).targets.insert (state.line + 1) (targetOf resolve tag raw) }⟩,
        (declarationProblems (blockFor state tag) (state.line + 1) tag (Line.ofRaw raw).text
          (resolve tag.target)).map .problem) := by
  unfold reads at h
  simp only [feed, h]
  rfl

theorem feed_of_finish {tag : Tag.End} (h : reads s raw = .finish tag) :
    feed s resolve state raw =
      match state.opened.find? tag.id with
      | some block =>
        (⟨state.line + 1, state.opened.erase tag.id⟩,
          [.completed ⟨tag.id, block.content, block.targets, block.comment, state.line + 1⟩])
      | none =>
        (⟨state.line + 1, state.opened⟩,
          [.problem (.endTagWithoutStartTag (state.line + 1) tag.id),
           .completed ⟨tag.id, [], ∅, tag.style, state.line + 1⟩]) := by
  unfold reads at h
  cases ho : state.opened.find? tag.id with
  | none => simp only [feed, h, ho]
  | some block => simp only [feed, h, ho]

theorem feed_of_badStart {fault : Tag.Fault} (h : reads s raw = .badStart fault) :
    feed s resolve state raw =
      (⟨state.line + 1, state.opened⟩,
        [.problem (.malformedStartTag (state.line + 1) fault)]) := by
  unfold reads at h
  simp only [feed, h]

theorem feed_of_badEnd {fault : Tag.Fault} (h : reads s raw = .badEnd fault) :
    feed s resolve state raw =
      (⟨state.line + 1, state.opened⟩,
        [.problem (.malformedEndTag (state.line + 1) fault)]) := by
  unfold reads at h
  simp only [feed, h]

theorem feed_of_content (h : reads s raw = .content) :
    feed s resolve state raw =
      (⟨state.line + 1, state.opened.map fun _ block =>
        { block with content := block.content ++ [raw] }⟩, []) := by
  unfold reads at h
  simp only [feed, h]

theorem line_feed : (feed s resolve state raw).1.line = state.line + 1 := by
  cases h : reads s raw with
  | start tag => rw [feed_of_start h]
  | finish tag =>
    rw [feed_of_finish h]
    split <;> rfl
  | badStart fault => rw [feed_of_badStart h]
  | badEnd fault => rw [feed_of_badEnd h]
  | content => rw [feed_of_content h]

theorem mem_declarationProblems {block : Opened} {line : Nat} {tag : Tag.Start}
    {declaration : Text} {resolved : Resolved}
    (h : x ∈ declarationProblems block line tag declaration resolved) :
    (∃ span, x = .fileDoesNotExist span tag.id tag.target) ∨
      block.targets.values.any (·.kind == resolved.kind) = true ∧
        (∃ span, span.line = line ∧ x = .duplicateTarget span tag.id tag.target declaration) ∨
      x = .differentCommentSyntax line tag.id tag.style block.comment ∨
      x = .startTagAfterContent line tag.id := by
  simp only [declarationProblems, List.mem_append] at h
  rcases h with ((h | h) | h) | h
  · split at h
    next => exact .inl ⟨_, List.mem_singleton.mp h⟩
    next => simp at h
  · split at h
    next hrep => exact .inr (.inl ⟨hrep, _, rfl, List.mem_singleton.mp h⟩)
    next => simp at h
  · split at h
    next => exact .inr (.inr (.inl (List.mem_singleton.mp h)))
    next => simp at h
  · split at h
    next => exact .inr (.inr (.inr (List.mem_singleton.mp h)))
    next => simp at h

/-- All that can be wrong with a line. -/
theorem problem_of_feed (h : Event.problem x ∈ (feed s resolve state raw).2) :
    (∃ tag, reads s raw = .start tag ∧
      x ∈ declarationProblems (blockFor state tag) (state.line + 1) tag (Line.ofRaw raw).text
        (resolve tag.target)) ∨
      (∃ id, x = .endTagWithoutStartTag (state.line + 1) id) ∨
      ∃ fault, x = .malformedStartTag (state.line + 1) fault ∨
        x = .malformedEndTag (state.line + 1) fault := by
  cases hr : reads s raw with
  | start tag =>
    rw [feed_of_start hr] at h
    obtain ⟨y, hy, he⟩ := List.mem_map.mp h
    exact .inl ⟨tag, rfl, Event.problem.inj he ▸ hy⟩
  | finish tag =>
    rw [feed_of_finish hr] at h
    split at h
    next => simp at h
    next => exact .inr (.inl ⟨tag.id, by simpa using h⟩)
  | badStart fault =>
    rw [feed_of_badStart hr] at h
    exact .inr (.inr ⟨fault, .inl (by simpa using h)⟩)
  | badEnd fault =>
    rw [feed_of_badEnd hr] at h
    exact .inr (.inr ⟨fault, .inr (by simpa using h)⟩)
  | content =>
    rw [feed_of_content hr] at h
    simp at h

theorem feedAll_cons (state : State) (raw : Text) (rest : List Text) :
    feedAll s resolve state (raw :: rest) =
      ((feedAll s resolve (feed s resolve state raw).1 rest).1,
        (feed s resolve state raw).2 ++ (feedAll s resolve (feed s resolve state raw).1 rest).2) :=
  rfl

theorem feedAll_singleton (state : State) (raw : Text) :
    feedAll s resolve state [raw] = feed s resolve state raw := by
  rw [feedAll_cons]
  simp [feedAll]

theorem feedAll_append (state : State) (front back : List Text) :
    feedAll s resolve state (front ++ back) =
      ((feedAll s resolve (feedAll s resolve state front).1 back).1,
        (feedAll s resolve state front).2 ++
          (feedAll s resolve (feedAll s resolve state front).1 back).2) := by
  induction front generalizing state with
  | nil => simp [feedAll]
  | cons raw front ih => simp [feedAll_cons, ih]

theorem mem_feedAll {lines : List Text} {e : Event} :
    e ∈ (feedAll s resolve state lines).2 ↔ ∃ pre raw post, lines = pre ++ raw :: post ∧
      e ∈ (feed s resolve (feedAll s resolve state pre).1 raw).2 := by
  induction lines generalizing state with
  | nil => simp [feedAll]
  | cons first rest ih =>
    rw [feedAll_cons, List.mem_append, ih]
    constructor
    · rintro (h | ⟨pre, raw, post, rfl, h⟩)
      · exact ⟨[], first, rest, rfl, h⟩
      · exact ⟨first :: pre, raw, post, rfl, h⟩
    · rintro ⟨pre, raw, post, he, h⟩
      cases pre with
      | nil =>
        obtain ⟨rfl, rfl⟩ := List.cons.inj he
        exact .inl h
      | cons first' pre =>
        obtain ⟨rfl, rfl⟩ := List.cons.inj he
        exact .inr ⟨pre, raw, post, rfl, h⟩

theorem mem_finish {state : State} {e : Event} :
    e ∈ finish state ↔ ∃ id block line, state.opened.find? id = some block ∧
      line ∈ block.targets.keys ∧ e = .problem (.startTagWithoutEndTag line id) := by
  simp only [finish, List.mem_flatMap, List.mem_map, Prod.exists, SortedMap.mem_entries_iff]
  constructor
  · rintro ⟨id, block, hb, line, hl, rfl⟩
    exact ⟨id, block, line, hb, hl, rfl⟩
  · rintro ⟨id, block, line, hb, hl, rfl⟩
    exact ⟨id, block, hb, line, hl, rfl⟩

end BlockSync.Block
