import BlockSync.Proofs.Block.Revised

/-! Lines of which some start tags are gone and some are written anew. As long as a start tag only
goes where the block of its id is open, the lines complete the same blocks but for their
declarations, whatever the references mean. -/

namespace BlockSync.Block

open Line (Whole)

variable {s : TagSyntax} {id : Text}

/-- The second list of lines is the first one with some start tags gone and some written anew. A
start tag that goes stands in an open block of its id; one that is written anew keeps its id, all
that stands before the keyword, and the terminator of its line. -/
inductive Retagged (s : TagSyntax) : List Line → List Line → List Line → Prop
  | nil (before : List Line) : Retagged s before [] []
  | keep {before rest rest' : List Line} {line : Line}
      (more : Retagged s (before ++ [line]) rest rest') :
      Retagged s before (line :: rest) (line :: rest')
  | drop {before rest rest' : List Line} {line : Line} {tag : Tag.Start}
      (start : s.classify line.text = .start tag)
      (opened : span s tag.id (before.map Line.raw) ≠ [])
      (more : Retagged s (before ++ [line]) rest rest') :
      Retagged s before (line :: rest) rest'
  | rewrite {before rest rest' : List Line} {line line' : Line} {tag tag' : Tag.Start}
      (start : s.classify line.text = .start tag) (start' : s.classify line'.text = .start tag')
      (id_eq : tag'.id = tag.id) (lead_eq : tag'.lead = tag.lead)
      (comment_eq : tag'.comment = tag.comment) (terminator_eq : line'.terminator = line.terminator)
      (more : Retagged s (before ++ [line]) rest rest') :
      Retagged s before (line :: rest) (line' :: rest')

/-- The same blocks are open behind both lists of lines, with the same content. -/
def SameSpans (s : TagSyntax) (before before' : List Text) : Prop :=
  ∀ id, (span s id before = [] ↔ span s id before' = []) ∧
    (span s id before').filter (isContent s) = (span s id before).filter (isContent s)

variable {before before' : List Text} {raw raw' : Text}

theorem SameSpans.keep (h : SameSpans s before before') (raw : Text) :
    SameSpans s (before ++ [raw]) (before' ++ [raw]) := by
  intro id
  obtain ⟨hnil, hcontent⟩ := h id
  rw [span_concat, span_concat, grow, grow]
  by_cases he : ends s id raw = true
  · simp [he]
  · rw [if_neg he, if_neg he]
    by_cases ho : span s id before = []
    · have ho' := hnil.mp ho
      simp [ho, ho']
    · have ho' : span s id before' ≠ [] := fun h' => ho (hnil.mpr h')
      simp [ho, ho', hcontent]

theorem span_concat_of_start {lines : List Text} {tag : Tag.Start} (hr : reads s raw = .start tag) :
    span s id (lines ++ [raw]) =
      if tag.id = id ∨ span s id lines ≠ [] then span s id lines ++ [raw] else [] := by
  have he : ends s id raw = false := by simp [ends, hr]
  rw [span_concat, grow, if_neg (by simp [he])]
  by_cases hid : tag.id = id
  · have hs : starts s id raw = true := starts_iff.mpr ⟨tag, hr, hid⟩
    simp [hs, hid]
  · have hs : starts s id raw = false := by simp [starts, hr, hid]
    by_cases ho : span s id lines = [] <;> simp [ho, hs, hid]

theorem SameSpans.drop (h : SameSpans s before before') {tag : Tag.Start}
    (hr : reads s raw = .start tag) (ho : span s tag.id before ≠ []) :
    SameSpans s (before ++ [raw]) before' := by
  intro id
  obtain ⟨hnil, hcontent⟩ := h id
  have hno : isContent s raw = false := by simp [isContent, hr]
  rw [span_concat_of_start hr]
  by_cases hopen : span s id before = []
  · have hid : tag.id ≠ id := fun hid => ho (hid ▸ hopen)
    simp [hopen, hid, hnil.mp hopen]
  · have hopen' : span s id before' ≠ [] := fun h' => hopen (hnil.mpr h')
    simp [hopen, hopen', hno, hcontent]

theorem SameSpans.rewrite (h : SameSpans s before before') {tag tag' : Tag.Start}
    (hr : reads s raw = .start tag) (hr' : reads s raw' = .start tag') (hid : tag'.id = tag.id) :
    SameSpans s (before ++ [raw]) (before' ++ [raw']) := by
  intro id
  obtain ⟨hnil, hcontent⟩ := h id
  have hno : isContent s raw = false := by simp [isContent, hr]
  have hno' : isContent s raw' = false := by simp [isContent, hr']
  rw [span_concat_of_start hr, span_concat_of_start hr', hid]
  by_cases ho : tag.id = id ∨ span s id before ≠ []
  · have ho' : tag.id = id ∨ span s id before' ≠ [] := ho.imp_right fun hn h' => hn (hnil.mpr h')
    simp [if_pos ho, if_pos ho', hno, hno', hcontent]
  · have ho' : ¬(tag.id = id ∨ span s id before' ≠ []) :=
      fun h' => ho (h'.imp_right fun hn h => hn (hnil.mp h))
    rw [if_neg ho, if_neg ho']
    exact ⟨Iff.rfl, rfl⟩

/-- The same block but for its declarations. -/
structure Restates (b b' : Block) : Prop where
  id_eq : b'.id = b.id
  content_eq : b'.content = b.content
  isEmpty_eq : b'.targets.isEmpty = b.targets.isEmpty

theorem Completes.restates {resolve resolve' : Text → Resolved} {b b' : Block}
    (hc : Completes s resolve before raw b) (hc' : Completes s resolve' before' raw b')
    (h : SameSpans s before before') : Restates b b' := by
  obtain ⟨tag, hr, hid⟩ := ends_iff.mp hc.ends
  obtain ⟨tag', hr', hid'⟩ := ends_iff.mp hc'.ends
  obtain rfl : tag = tag' := Tag.Line.finish.inj (hr.symm.trans hr')
  have hids : b'.id = b.id := hid'.symm.trans hid
  obtain ⟨hnil, hcontent⟩ := h b.id
  by_cases ho : span s b.id before = []
  · have ho' : span s b'.id before' = [] := hids ▸ hnil.mp ho
    obtain ⟨hcon, htar⟩ := hc.orphan ho
    obtain ⟨hcon', htar'⟩ := hc'.orphan ho'
    refine ⟨hids, hcon'.trans hcon.symm, ?_⟩
    rw [SortedMap.isEmpty, SortedMap.isEmpty, htar, htar']
  · have ho' : span s b'.id before' ≠ [] := fun h' => ho (hnil.mpr (hids ▸ h'))
    have hspans := hc.block ho
    have hspans' := hc'.block ho'
    refine ⟨hids, ?_, ?_⟩
    · rw [hspans'.content_eq, hspans.content_eq, hids, hcontent]
    · have hne := hspans.targets_ne_nil
      have hne' := hspans'.targets_ne_nil
      rw [SortedMap.isEmpty, SortedMap.isEmpty, List.isEmpty_eq_false_iff.mpr hne,
        List.isEmpty_eq_false_iff.mpr hne']

section

variable {resolve resolve' : Text → Resolved} {state state' : State}

theorem Describes.restates_feed (h : Describes s resolve before state)
    (h' : Describes s resolve' before' state') (hspans : SameSpans s before before') (raw : Text) :
    List.Forall₂ Restates (completed (Block.feed s resolve state raw).2)
      (completed (Block.feed s resolve' state' raw).2) := by
  rcases h.completed_feed raw with ⟨b, hb, hc⟩ | ⟨hnil, hno⟩
  · rcases h'.completed_feed raw with ⟨b', hb', hc'⟩ | ⟨-, hno'⟩
    · rw [hb, hb']
      exact .cons (hc.restates hc' hspans) .nil
    · have he := hc.ends
      simp [hno'] at he
  · rcases h'.completed_feed raw with ⟨b', -, hc'⟩ | ⟨hnil', -⟩
    · have he := hc'.ends
      simp [hno] at he
    · rw [hnil, hnil']
      exact .nil

theorem completed_feed_of_start {tag : Tag.Start} (hr : reads s raw = .start tag) :
    completed (feed s resolve state raw).2 = [] := by
  rw [feed_of_start hr]
  exact completed_problems _

theorem reads_raw_of_whole {line : Line} (h : Whole line) :
    reads s line.raw = s.classify line.text := by
  rw [reads, h.ofRaw_raw]

theorem Retagged.restates_feedAll {before : List Line} {lines lines' : List Line}
    (h : Retagged s before lines lines') (hw : ∀ line ∈ lines, Whole line)
    (hw' : ∀ line ∈ lines', Whole line) (hd : Describes s resolve (before.map Line.raw) state)
    (hd' : Describes s resolve' before' state')
    (hspans : SameSpans s (before.map Line.raw) before') :
    List.Forall₂ Restates (completed (feedAll s resolve state (lines.map Line.raw)).2)
      (completed (feedAll s resolve' state' (lines'.map Line.raw)).2) := by
  induction h generalizing state state' before' with
  | nil before => exact .nil
  | @keep before rest rest' line more ih =>
    have hnext := ih (fun l hl => hw l (by simp [hl])) (fun l hl => hw' l (by simp [hl]))
      (by simpa using hd.feed line.raw) (hd'.feed line.raw) (by simpa using hspans.keep line.raw)
    rw [List.map_cons, List.map_cons, feedAll_cons, feedAll_cons, completed_append, completed_append]
    exact List.rel_append (hd.restates_feed hd' hspans line.raw) hnext
  | @drop before rest rest' line tag start opened more ih =>
    have hr : reads s line.raw = .start tag := (reads_raw_of_whole (hw line (by simp))).trans start
    have hnext := ih (fun l hl => hw l (by simp [hl])) hw' (by simpa using hd.feed line.raw) hd'
      (by simpa using hspans.drop hr opened)
    rw [List.map_cons, feedAll_cons, completed_append, completed_feed_of_start hr, List.nil_append]
    exact hnext
  | @rewrite before rest rest' line line' tag tag' start start' id_eq lead_eq comment_eq
      terminator_eq more ih =>
    have hr : reads s line.raw = .start tag := (reads_raw_of_whole (hw line (by simp))).trans start
    have hr' : reads s line'.raw = .start tag' :=
      (reads_raw_of_whole (hw' line' (by simp))).trans start'
    have hnext := ih (fun l hl => hw l (by simp [hl])) (fun l hl => hw' l (by simp [hl]))
      (by simpa using hd.feed line.raw) (hd'.feed line'.raw)
      (by simpa using hspans.rewrite hr hr' id_eq)
    rw [List.map_cons, List.map_cons, feedAll_cons, feedAll_cons, completed_append,
      completed_append, completed_feed_of_start hr, completed_feed_of_start hr', List.nil_append,
      List.nil_append]
    exact hnext

/-- Whatever the references mean, the same blocks are completed. -/
theorem Retagged.restates_events {lines lines' : List Line} (h : Retagged s [] lines lines')
    (hw : ∀ line ∈ lines, Whole line) (hw' : ∀ line ∈ lines', Whole line)
    (resolve resolve' : Text → Resolved) :
    List.Forall₂ Restates (completed (events s resolve (lines.map Line.raw)))
      (completed (events s resolve' (lines'.map Line.raw))) := by
  have hspans : SameSpans s [] [] := fun _ => ⟨Iff.rfl, rfl⟩
  rw [completed_events, completed_events]
  exact h.restates_feedAll hw hw' .initial .initial hspans

theorem Describes.span_ne_nil_of_repeats (h : Describes s resolve before state) {tag : Tag.Start}
    (hrep : repeats resolve state tag = true) : span s tag.id before ≠ [] := by
  intro ho
  rw [repeats, blockFor, h.none ho] at hrep
  simp [SortedMap.values] at hrep

/-- Revised lines are lines with some start tags gone and some written anew. -/
theorem retagged_revise (hs : s.Plain) {amend : Tag.Start → Option Text} {before lines : List Line}
    (ha : ∀ line ∈ lines, Sound s amend line)
    (hd : Describes s resolve (before.map Line.raw) state) :
    Retagged s before lines (revise s resolve amend state lines) := by
  induction lines generalizing before state with
  | nil => exact .nil before
  | cons line rest ih =>
    have hline := ha line (by simp)
    have hmore : Retagged s (before ++ [line]) rest
        (revise s resolve amend (feed s resolve state line.raw).1 rest) :=
      ih (fun l hl => ha l (by simp [hl])) (by simpa using hd.feed line.raw)
    rw [revise, reviseLine]
    split
    next tag hc =>
      by_cases hrep : repeats resolve state tag = true
      · rw [if_pos hrep]
        exact .drop hc (hd.span_ne_nil_of_repeats hrep) hmore
      · rw [if_neg hrep, amendLine]
        cases hamend : amend tag with
        | none => exact .keep hmore
        | some checksum =>
          obtain ⟨tag', hc', hid, hlead, hcomment⟩ :=
            TagSyntax.classify_render_start hs hc (hline.solid tag hc checksum hamend)
          exact .rewrite hc hc' hid hlead hcomment rfl hmore
    next => exact .keep hmore

end

end BlockSync.Block
