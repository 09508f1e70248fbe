import BlockSync.Proofs.Block.Revised

/-! The repairs that reading lines suggests. A line is to be deleted exactly if it repeats a target
of its block, and reading suggests no other repair. -/

namespace BlockSync.Block

variable {s : TagSyntax} {resolve : Text → Resolved} {state : State} {raw : Text} {x : Diagnostic}

theorem repeats_of_feed (h : Event.problem x ∈ (feed s resolve state raw).2)
    (hf : x.isFixable = true) :
    ∃ tag, reads s raw = .start tag ∧ repeats resolve state tag = true ∧
      x.problem = .duplicateTarget ∧
      ∃ description, x.fix = some (.delete (state.line + 1) description (Line.ofRaw raw).text) := by
  rcases problem_of_feed h with ⟨tag, hr, hx⟩ | ⟨id, rfl⟩ | ⟨fault, rfl | rfl⟩
  · rcases mem_declarationProblems hx with ⟨span, rfl⟩ | ⟨hrep, span, hline, rfl⟩ | rfl | rfl
    · exact absurd hf Bool.false_ne_true
    · exact ⟨tag, hr, hrep, rfl, _, by rw [← hline]; rfl⟩
    · exact absurd hf Bool.false_ne_true
    · exact absurd hf Bool.false_ne_true
  · exact absurd hf Bool.false_ne_true
  · exact absurd hf Bool.false_ne_true
  · exact absurd hf Bool.false_ne_true

theorem feed_of_repeats {tag : Tag.Start} (hr : reads s raw = .start tag)
    (hrep : repeats resolve state tag = true) :
    ∃ x description, Event.problem x ∈ (feed s resolve state raw).2 ∧
      x.fix = some (.delete (state.line + 1) description (Line.ofRaw raw).text) := by
  let span : Location :=
    ⟨state.line + 1, some (tag.targetOffset + 1), some (tag.targetOffset + tag.target.byteLength)⟩
  have hx : Diagnostic.duplicateTarget span tag.id tag.target (Line.ofRaw raw).text ∈
      declarationProblems (blockFor state tag) (state.line + 1) tag (Line.ofRaw raw).text
        (resolve tag.target) := by
    simp only [declarationProblems, List.mem_append]
    refine .inl (.inl (.inr ?_))
    rw [repeats] at hrep
    rw [if_pos hrep]
    exact List.mem_singleton_self _
  rw [feed_of_start hr]
  exact ⟨_, _, List.mem_map.mpr ⟨_, hx, rfl⟩, rfl⟩

/-- What is read before a line. -/
def stateAfter (s : TagSyntax) (resolve : Text → Resolved) (lines : List Text) : State :=
  (feedAll s resolve .initial lines).1

theorem stateAfter_concat (s : TagSyntax) (resolve : Text → Resolved) (pre : List Text)
    (raw : Text) :
    stateAfter s resolve (pre ++ [raw]) = (feed s resolve (stateAfter s resolve pre) raw).1 := by
  rw [stateAfter, feedAll_append, feedAll_singleton]
  rfl

theorem line_stateAfter (lines : List Text) : (stateAfter s resolve lines).line = lines.length := by
  have hd : Describes s resolve ([] ++ lines) (stateAfter s resolve lines) :=
    Describes.initial.feedAll lines
  exact hd.line_eq

theorem repeats_of_events {lines : List Text} (h : Event.problem x ∈ events s resolve lines)
    (hf : x.isFixable = true) :
    x.problem = .duplicateTarget ∧ ∃ pre raw post tag description, lines = pre ++ raw :: post ∧
      reads s raw = .start tag ∧ repeats resolve (stateAfter s resolve pre) tag = true ∧
      x.fix = some (.delete (pre.length + 1) description (Line.ofRaw raw).text) := by
  rcases List.mem_append.mp h with h | h
  · obtain ⟨pre, raw, post, hl, h⟩ := mem_feedAll.mp h
    obtain ⟨tag, hr, hrep, hx, description, hfix⟩ := repeats_of_feed h hf
    have hline : (stateAfter s resolve pre).line = pre.length := line_stateAfter pre
    rw [stateAfter] at hline
    rw [hline] at hfix
    exact ⟨hx, pre, raw, post, tag, description, hl, hr, hrep, hfix⟩
  · obtain ⟨id, block, line, -, -, he⟩ := mem_finish.mp h
    obtain rfl := Event.problem.inj he
    simp [Diagnostic.isFixable, Diagnostic.startTagWithoutEndTag, Diagnostic.onLine] at hf

theorem events_of_repeats {pre post : List Text} {tag : Tag.Start} (hr : reads s raw = .start tag)
    (hrep : repeats resolve (stateAfter s resolve pre) tag = true) :
    ∃ x description, Event.problem x ∈ events s resolve (pre ++ raw :: post) ∧
      x.fix = some (.delete (pre.length + 1) description (Line.ofRaw raw).text) := by
  obtain ⟨x, description, hx, hfix⟩ := feed_of_repeats hr hrep
  rw [line_stateAfter] at hfix
  exact ⟨x, description, List.mem_append_left _ (mem_feedAll.mpr ⟨pre, raw, post, rfl, hx⟩), hfix⟩

section

open Line (Whole)

variable {lines pre post : List Line} {line : Line}

/-- A repair that reading whole lines suggests deletes a line that repeats a target. -/
theorem exists_repeat_of_events (hw : ∀ line ∈ lines, Whole line)
    (h : Event.problem x ∈ events s resolve (lines.map Line.raw)) (hf : x.isFixable = true) :
    x.problem = .duplicateTarget ∧ ∃ pre line post tag description, lines = pre ++ line :: post ∧
      s.classify line.text = .start tag ∧
      repeats resolve (stateAfter s resolve (pre.map Line.raw)) tag = true ∧
      x.fix = some (.delete (pre.length + 1) description line.text) := by
  obtain ⟨hx, pre, raw, post, tag, description, hl, hr, hrep, hfix⟩ := repeats_of_events h hf
  obtain ⟨pre, rest, rfl, rfl, hrest⟩ := List.map_eq_append_iff.mp hl
  obtain ⟨line, post, rfl, rfl, rfl⟩ := List.map_eq_cons_iff.mp hrest
  have hline : (Line.ofRaw line.raw).text = line.text := by rw [(hw line (by simp)).ofRaw_raw]
  rw [reads, hline] at hr
  rw [hline, List.length_map] at hfix
  exact ⟨hx, pre, line, post, tag, description, rfl, hr, hrep, hfix⟩

theorem exists_event_of_repeats (hw : Whole line) {tag : Tag.Start}
    (hc : s.classify line.text = .start tag)
    (hrep : repeats resolve (stateAfter s resolve (pre.map Line.raw)) tag = true) :
    ∃ x description, Event.problem x ∈ events s resolve ((pre ++ line :: post).map Line.raw) ∧
      x.fix = some (.delete (pre.length + 1) description line.text) := by
  have hline : (Line.ofRaw line.raw).text = line.text := by rw [hw.ofRaw_raw]
  have hr : reads s line.raw = .start tag := by rw [reads, hline, hc]
  obtain ⟨x, description, hx, hfix⟩ := @events_of_repeats s resolve line.raw (pre.map Line.raw) (post.map Line.raw) tag hr hrep
  rw [hline, List.length_map] at hfix
  exact ⟨x, description, by rwa [List.map_append, List.map_cons], hfix⟩

end

end BlockSync.Block
