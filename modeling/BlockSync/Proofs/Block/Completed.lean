import BlockSync.Proofs.Block.Feed

/-! What reading lines keeps of each id and what it completes. The open block of an id holds the
content lines and the declarations of the lines that it spans, and each end tag completes exactly
one block. -/

namespace BlockSync.Block

variable {s : TagSyntax} {resolve : Text → Resolved} {id : Text}

/-- The declarations of an id, with their line numbers from `n` on. -/
def declared (s : TagSyntax) (resolve : Text → Resolved) (id : Text) :
    Nat → List Text → List (Nat × Target)
  | _, [] => []
  | n, raw :: rest =>
    match reads s raw with
    | .start tag =>
      if tag.id = id then (n, targetOf resolve tag raw) :: declared s resolve id (n + 1) rest
      else declared s resolve id (n + 1) rest
    | _ => declared s resolve id (n + 1) rest

theorem declared_append (n : Nat) (front back : List Text) :
    declared s resolve id n (front ++ back) =
      declared s resolve id n front ++ declared s resolve id (n + front.length) back := by
  induction front generalizing n with
  | nil => simp [declared]
  | cons raw front ih =>
    simp only [List.cons_append, declared, ih, List.length_cons]
    rw [show n + (front.length + 1) = n + 1 + front.length by omega]
    split
    next => split <;> simp
    next => rfl

theorem declared_of_start {n : Nat} {raw : Text} {tag : Tag.Start} (h : reads s raw = .start tag)
    (hid : tag.id = id) : declared s resolve id n [raw] = [(n, targetOf resolve tag raw)] := by
  simp [declared, h, hid]

theorem declared_of_not_starts {n : Nat} {raw : Text} (h : starts s id raw = false) :
    declared s resolve id n [raw] = [] := by
  unfold starts at h
  unfold declared
  split
  next tag ht =>
    have hne : tag.id ≠ id := by simpa [ht] using h
    simp [hne, declared]
  next => rfl

theorem lt_of_mem_declared {n : Nat} {lines : List Text} {e : Nat × Target}
    (h : e ∈ declared s resolve id n lines) : e.1 < n + lines.length := by
  induction lines generalizing n with
  | nil => simp [declared] at h
  | cons raw lines ih =>
    have hmore : e ∈ declared s resolve id (n + 1) lines → e.1 < n + (lines.length + 1) := by
      intro he
      have := ih he
      omega
    unfold declared at h
    split at h
    next =>
      split at h
      next =>
        rcases List.mem_cons.mp h with rfl | h
        · simp
        · exact hmore h
      next => exact hmore h
    next => exact hmore h

/-- What a stretch of lines, the first of which is line `first`, makes of a block of the id. -/
structure Spans (s : TagSyntax) (resolve : Text → Resolved) (id : Text) (first : Nat)
    (lines content : List Text) (targets : SortedMap Nat Target) (comment : CommentStyle) :
    Prop where
  content_eq : content = lines.filter (isContent s)
  targets_eq : targets.entries = declared s resolve id first lines
  head : ∃ raw rest tag, lines = raw :: rest ∧ reads s raw = .start tag ∧ tag.id = id ∧
    comment = tag.style

theorem Spans.targets_ne_nil {first : Nat} {lines content : List Text}
    {targets : SortedMap Nat Target} {comment : CommentStyle}
    (h : Spans s resolve id first lines content targets comment) : targets.entries ≠ [] := by
  obtain ⟨raw, rest, tag, rfl, hr, hid, -⟩ := h.head
  have he := h.targets_eq
  simp only [declared, hr, hid, if_true] at he
  simp [he]

/-- The number of the first line of the open block. -/
def firstOf (s : TagSyntax) (id : Text) (lines : List Text) : Nat :=
  lines.length - (span s id lines).length + 1

theorem length_span_le (lines : List Text) : (span s id lines).length ≤ lines.length := by
  by_cases h : span s id lines = []
  · simp [h]
  · obtain ⟨before, raw, rest, hl, hs, -⟩ := span_eq_cons h
    rw [hs, hl]
    simp

theorem firstOf_concat {lines : List Text} {raw : Text}
    (h : span s id (lines ++ [raw]) = span s id lines ++ [raw]) :
    firstOf s id (lines ++ [raw]) = firstOf s id lines := by
  rw [firstOf, firstOf, h]
  simp

/-- The state behind some lines. -/
structure Describes (s : TagSyntax) (resolve : Text → Resolved) (lines : List Text)
    (state : State) : Prop where
  line_eq : state.line = lines.length
  none : ∀ {id}, span s id lines = [] → state.opened.find? id = none
  some : ∀ {id}, span s id lines ≠ [] → ∃ block, state.opened.find? id = some block ∧
    Spans s resolve id (firstOf s id lines) (span s id lines) block.content block.targets
      block.comment

theorem Describes.initial : Describes s resolve [] .initial := by
  constructor <;> simp [State.initial]

theorem span_concat_of_other (lines : List Text) {raw : Text} (hs : starts s id raw = false)
    (he : ends s id raw = false) :
    span s id (lines ++ [raw]) = if span s id lines = [] then [] else span s id lines ++ [raw] := by
  rw [span_concat, grow]
  by_cases h : span s id lines = [] <;> simp [h, hs, he]

theorem span_concat_of_starts (lines : List Text) {raw : Text} (hs : starts s id raw = true) :
    span s id (lines ++ [raw]) = span s id lines ++ [raw] := by
  simp [span_concat, grow, hs, ends_eq_false_of_starts hs]

theorem span_concat_of_ends (lines : List Text) {raw : Text} (he : ends s id raw = true) :
    span s id (lines ++ [raw]) = [] := by
  simp [span_concat, grow, he]

theorem Spans.concat_other {first : Nat} {lines content : List Text}
    {targets : SortedMap Nat Target} {comment : CommentStyle} {raw : Text}
    (h : Spans s resolve id first lines content targets comment) (hs : starts s id raw = false) :
    Spans s resolve id first (lines ++ [raw])
      (if isContent s raw then content ++ [raw] else content) targets comment := by
  obtain ⟨x, rest, tag, rfl, hr, hid, hc⟩ := h.head
  refine ⟨?_, ?_, x, rest ++ [raw], tag, by simp, hr, hid, hc⟩
  · rw [h.content_eq, List.filter_append]
    by_cases hi : isContent s raw = true <;> simp [hi]
  · rw [h.targets_eq, declared_append, declared_of_not_starts hs, List.append_nil]

theorem Spans.concat_start {lines content : List Text} {targets : SortedMap Nat Target}
    {comment : CommentStyle} {raw : Text} {tag : Tag.Start} {first : Nat}
    (h : Spans s resolve id first lines content targets comment) (hr : reads s raw = .start tag)
    (hid : tag.id = id) :
    Spans s resolve id first (lines ++ [raw]) content
      (targets.insert (first + lines.length) (targetOf resolve tag raw)) comment := by
  obtain ⟨x, rest, tag', rfl, hr', hid', hc⟩ := h.head
  refine ⟨?_, ?_, x, rest ++ [raw], tag', by simp, hr', hid', hc⟩
  · rw [h.content_eq, List.filter_append]
    simp [isContent, hr]
  · rw [SortedMap.entries_insert_last, h.targets_eq, declared_append, declared_of_start hr hid]
    intro k hk
    obtain ⟨e, he, rfl⟩ := List.mem_map.mp hk
    rw [h.targets_eq] at he
    exact Nat.compare_eq_lt.mpr (lt_of_mem_declared he)

theorem spans_singleton {raw : Text} {tag : Tag.Start} (n : Nat) (hr : reads s raw = .start tag) :
    Spans s resolve tag.id n [raw] [] ((∅ : SortedMap Nat Target).insert n (targetOf resolve tag raw))
      tag.style :=
  ⟨by simp [isContent, hr], (declared_of_start hr rfl).symm, raw, [], tag, rfl, hr, rfl, rfl⟩

theorem Describes.concat_other {lines : List Text} {state state' : State} {raw : Text}
    (h : Describes s resolve lines state) (hs : starts s id raw = false)
    (he : ends s id raw = false)
    (hf : state'.opened.find? id = (state.opened.find? id).map fun block =>
      if isContent s raw then { block with content := block.content ++ [raw] } else block) :
    (span s id (lines ++ [raw]) = [] → state'.opened.find? id = Option.none) ∧
      (span s id (lines ++ [raw]) ≠ [] → ∃ block, state'.opened.find? id = Option.some block ∧
        Spans s resolve id (firstOf s id (lines ++ [raw])) (span s id (lines ++ [raw]))
          block.content block.targets block.comment) := by
  have hsp := span_concat_of_other lines hs he
  by_cases ho : span s id lines = []
  · rw [if_pos ho] at hsp
    simp [hsp, hf, h.none ho]
  · rw [if_neg ho] at hsp
    obtain ⟨block, hb, hspans⟩ := h.some ho
    refine ⟨by simp [hsp], fun _ => ?_⟩
    have hh := hspans.concat_other hs
    rw [hf, hb, firstOf_concat hsp, hsp]
    refine ⟨_, rfl, ?_⟩
    by_cases hc : isContent s raw = true
    · simpa only [if_pos hc] using hh
    · simpa only [if_neg hc] using hh

theorem Describes.feed {lines : List Text} {state : State} (h : Describes s resolve lines state)
    (raw : Text) : Describes s resolve (lines ++ [raw]) (feed s resolve state raw).1 := by
  have hline : (Block.feed s resolve state raw).1.line = (lines ++ [raw]).length := by
    rw [line_feed, h.line_eq]
    simp
  suffices hid : ∀ id,
      (span s id (lines ++ [raw]) = [] →
        (Block.feed s resolve state raw).1.opened.find? id = Option.none) ∧
      (span s id (lines ++ [raw]) ≠ [] →
        ∃ block, (Block.feed s resolve state raw).1.opened.find? id = Option.some block ∧
          Spans s resolve id (firstOf s id (lines ++ [raw])) (span s id (lines ++ [raw]))
            block.content block.targets block.comment) from
    ⟨hline, fun {id} => (hid id).1, fun {id} => (hid id).2⟩
  intro id
  cases hr : reads s raw with
  | start tag =>
    rw [feed_of_start hr]
    have hcontent : isContent s raw = false := by simp [isContent, hr]
    by_cases hid : tag.id = id
    · subst hid
      have hsp := span_concat_of_starts lines (starts_iff.mpr ⟨tag, hr, rfl⟩)
      refine ⟨by simp [hsp], fun _ => ⟨_, SortedMap.find?_insert_self .., ?_⟩⟩
      rw [firstOf_concat hsp, hsp]
      by_cases ho : span s tag.id lines = []
      · rw [blockFor, h.none ho, Option.getD_none]
        have hn : firstOf s tag.id lines = state.line + 1 := by simp [firstOf, ho, h.line_eq]
        rw [ho, hn]
        exact spans_singleton _ hr
      · obtain ⟨block, hb, hspans⟩ := h.some ho
        have hn : state.line + 1 = firstOf s tag.id lines + (span s tag.id lines).length := by
          have hle : (span s tag.id lines).length ≤ lines.length := length_span_le lines
          rw [firstOf, h.line_eq]
          omega
        rw [blockFor, hb, Option.getD_some, hn]
        exact hspans.concat_start hr rfl
    · refine h.concat_other (by simp [starts, hr, hid]) (by simp [ends, hr]) ?_
      simp only [hcontent, Bool.false_eq_true, if_false, Option.map_id']
      exact SortedMap.find?_insert_of_ne _ _ (Ne.symm hid)
  | finish tag =>
    have hcontent : isContent s raw = false := by simp [isContent, hr]
    by_cases hid : tag.id = id
    · subst hid
      rw [span_concat_of_ends _ (ends_iff.mpr ⟨tag, hr, rfl⟩), feed_of_finish hr]
      refine ⟨fun _ => ?_, by simp⟩
      split
      next => simp [SortedMap.find?_erase]
      next hn => exact hn
    · refine h.concat_other (by simp [starts, hr]) (by simp [ends, hr, hid]) ?_
      simp only [hcontent, Bool.false_eq_true, if_false, Option.map_id']
      rw [feed_of_finish hr]
      split
      next => rw [SortedMap.find?_erase, if_neg (Ne.symm hid)]
      next => rfl
  | badStart fault =>
    refine h.concat_other (by simp [starts, hr]) (by simp [ends, hr]) ?_
    simp [isContent, hr, feed_of_badStart hr]
  | badEnd fault =>
    refine h.concat_other (by simp [starts, hr]) (by simp [ends, hr]) ?_
    simp [isContent, hr, feed_of_badEnd hr]
  | content =>
    refine h.concat_other (by simp [starts, hr]) (by simp [ends, hr]) ?_
    simp [isContent, hr, feed_of_content hr, SortedMap.find?_map]

/-- The completed blocks among the events. -/
def completed (events : List Event) : List Block :=
  events.filterMap fun
    | .completed b => some b
    | .problem _ => none

@[simp]
theorem mem_completed {events : List Event} {b : Block} :
    b ∈ completed events ↔ Event.completed b ∈ events := by
  simp only [completed, List.mem_filterMap]
  constructor
  · rintro ⟨event, hm, he⟩
    cases event with
    | problem diagnostic => simp at he
    | completed block => exact Option.some.inj he ▸ hm
  · intro hm
    exact ⟨_, hm, rfl⟩

theorem completed_append (front back : List Event) :
    completed (front ++ back) = completed front ++ completed back :=
  List.filterMap_append

theorem completed_problems (diagnostics : List Diagnostic) :
    completed (diagnostics.map .problem) = [] := by
  simp [completed]

/-- The block that an end tag behind some lines completes. -/
structure Completes (s : TagSyntax) (resolve : Text → Resolved) (lines : List Text) (raw : Text)
    (b : Block) : Prop where
  ends : ends s b.id raw = true
  endLine_eq : b.endLine = lines.length + 1
  orphan : span s b.id lines = [] → b.content = [] ∧ b.targets.entries = []
  block : span s b.id lines ≠ [] →
    Spans s resolve b.id (firstOf s b.id lines) (span s b.id lines) b.content b.targets b.comment

/-- An end tag completes one block, and no other line completes any. -/
theorem Describes.completed_feed {lines : List Text} {state : State}
    (h : Describes s resolve lines state) (raw : Text) :
    (∃ b, completed (Block.feed s resolve state raw).2 = [b] ∧ Completes s resolve lines raw b) ∨
      completed (Block.feed s resolve state raw).2 = [] ∧ ∀ id, Block.ends s id raw = false := by
  cases hr : reads s raw with
  | start tag =>
    rw [feed_of_start hr]
    exact .inr ⟨completed_problems _, fun id => by simp [Block.ends, hr]⟩
  | finish tag =>
    have he : Block.ends s tag.id raw = true := ends_iff.mpr ⟨tag, hr, rfl⟩
    left
    rw [feed_of_finish hr]
    by_cases ho : span s tag.id lines = []
    · rw [h.none ho]
      refine ⟨_, rfl, he, by rw [h.line_eq], fun _ => ⟨rfl, rfl⟩, fun hn => absurd ho hn⟩
    · obtain ⟨block, hb, hspans⟩ := h.some ho
      rw [hb]
      exact ⟨_, rfl, he, by rw [h.line_eq], fun hn => absurd hn ho, fun _ => hspans⟩
  | badStart fault =>
    rw [feed_of_badStart hr]
    exact .inr ⟨rfl, fun id => by simp [Block.ends, hr]⟩
  | badEnd fault =>
    rw [feed_of_badEnd hr]
    exact .inr ⟨rfl, fun id => by simp [Block.ends, hr]⟩
  | content =>
    rw [feed_of_content hr]
    exact .inr ⟨rfl, fun id => by simp [Block.ends, hr]⟩

theorem Describes.feedAll {lines : List Text} {state : State} (h : Describes s resolve lines state)
    (more : List Text) :
    Describes s resolve (lines ++ more) (feedAll s resolve state more).1 := by
  induction more generalizing lines state with
  | nil => simpa [Block.feedAll] using h
  | cons raw more ih => simpa [feedAll_cons] using ih (h.feed raw)

theorem Describes.completes_of_mem {lines more : List Text} {state : State}
    (h : Describes s resolve lines state) {b : Block}
    (hb : b ∈ completed (Block.feedAll s resolve state more).2) :
    ∃ pre raw post, more = pre ++ raw :: post ∧ Completes s resolve (lines ++ pre) raw b := by
  induction more generalizing lines state with
  | nil => simp [Block.feedAll] at hb
  | cons raw more ih =>
    rw [feedAll_cons, completed_append] at hb
    rcases List.mem_append.mp hb with hb | hb
    · rcases h.completed_feed raw with ⟨b', hc, hcomp⟩ | ⟨hc, -⟩
      · rw [hc, List.mem_singleton] at hb
        exact ⟨[], raw, more, rfl, by simpa [hb] using hcomp⟩
      · simp [hc] at hb
    · obtain ⟨pre, x, post, rfl, hcomp⟩ := ih (h.feed raw) hb
      exact ⟨raw :: pre, x, post, rfl, by simpa using hcomp⟩

theorem Describes.exists_completed {lines pre post : List Text} {state : State} {raw : Text}
    (h : Describes s resolve lines state) (he : Block.ends s id raw = true) :
    ∃ b ∈ completed (Block.feedAll s resolve state (pre ++ raw :: post)).2,
      b.id = id ∧ Completes s resolve (lines ++ pre) raw b := by
  induction pre generalizing lines state with
  | nil =>
    rw [List.nil_append, feedAll_cons, completed_append]
    rcases h.completed_feed raw with ⟨b, hc, hcomp⟩ | ⟨-, hno⟩
    · refine ⟨b, by simp [hc], ?_, by simpa using hcomp⟩
      obtain ⟨tag, hr, rfl⟩ := ends_iff.mp he
      obtain ⟨tag', hr', hid⟩ := ends_iff.mp hcomp.ends
      rw [hr, Tag.Line.finish.injEq] at hr'
      rw [← hid, hr']
    · simp [hno id] at he
  | cons x pre ih =>
    obtain ⟨b, hb, hid, hcomp⟩ := ih (h.feed x)
    rw [List.cons_append, feedAll_cons, completed_append]
    exact ⟨b, List.mem_append_right _ hb, hid, by simpa using hcomp⟩

theorem Describes.pairwise_completed {lines : List Text} {state : State}
    (h : Describes s resolve lines state) (more : List Text) :
    (completed (Block.feedAll s resolve state more).2).Pairwise (·.endLine < ·.endLine) := by
  induction more generalizing lines state with
  | nil => simp [Block.feedAll, completed]
  | cons raw more ih =>
    rw [feedAll_cons, completed_append]
    rcases h.completed_feed raw with ⟨b, hc, hcomp⟩ | ⟨hc, -⟩
    · rw [hc, List.singleton_append]
      refine .cons (fun b' hb' => ?_) (ih (h.feed raw))
      obtain ⟨pre, x, post, -, hcomp'⟩ := (h.feed raw).completes_of_mem hb'
      rw [hcomp.endLine_eq, hcomp'.endLine_eq]
      simp only [List.length_append, List.length_singleton]
      omega
    · rw [hc, List.nil_append]
      exact ih (h.feed raw)

theorem completed_finish (state : State) : completed (finish state) = [] := by
  simp only [completed, finish, List.filterMap_eq_nil_iff, List.mem_flatMap, List.mem_map]
  rintro _ ⟨_, -, _, -, rfl⟩
  rfl

theorem completed_events (lines : List Text) :
    completed (events s resolve lines) = completed (feedAll s resolve .initial lines).2 := by
  rw [events, completed_append, completed_finish, List.append_nil]

theorem completes_of_mem_events {lines : List Text} {b : Block}
    (hb : b ∈ completed (events s resolve lines)) :
    ∃ pre raw post, lines = pre ++ raw :: post ∧ Completes s resolve pre raw b := by
  rw [completed_events] at hb
  exact Describes.initial.completes_of_mem hb

theorem exists_completed_events (resolve : Text → Resolved) (pre post : List Text) {raw : Text}
    (he : ends s id raw = true) :
    ∃ b ∈ completed (events s resolve (pre ++ raw :: post)),
      b.id = id ∧ Completes s resolve pre raw b := by
  rw [completed_events]
  exact Describes.initial.exists_completed he

theorem pairwise_completed_events (lines : List Text) :
    (completed (events s resolve lines)).Pairwise (·.endLine < ·.endLine) := by
  rw [completed_events]
  exact Describes.initial.pairwise_completed lines

theorem problem_of_span (resolve : Text → Resolved) {lines : List Text}
    (h : span s id lines ≠ []) :
    ∃ line, Event.problem (.startTagWithoutEndTag line id) ∈ events s resolve lines := by
  have hd : Describes s resolve ([] ++ lines) _ := Describes.initial.feedAll lines
  obtain ⟨block, hb, hspans⟩ := hd.some h
  obtain ⟨e, more, he⟩ := List.exists_cons_of_ne_nil hspans.targets_ne_nil
  refine ⟨e.1, List.mem_append_right _ (List.mem_flatMap.mpr ⟨(id, block), ?_, ?_⟩)⟩
  · exact SortedMap.mem_entries_iff.mpr hb
  · simp [SortedMap.keys, he]

theorem mem_declared {n : Nat} {lines : List Text} {e : Nat × Target} :
    e ∈ declared s resolve id n lines ↔ ∃ i raw tag, lines[i]? = some raw ∧
      reads s raw = .start tag ∧ tag.id = id ∧ e = (n + i, targetOf resolve tag raw) := by
  induction lines using List.reverseRecOn with
  | nil => simp [declared]
  | append_singleton lines last ih =>
    rw [declared_append, List.mem_append, ih]
    constructor
    · rintro (⟨i, raw, tag, hi, hr, hid, rfl⟩ | h)
      · have hlt := (List.getElem?_eq_some_iff.mp hi).1
        exact ⟨i, raw, tag, by rw [List.getElem?_append_left hlt, hi], hr, hid, rfl⟩
      · by_cases hs : starts s id last = true
        · obtain ⟨tag, hr, hid⟩ := starts_iff.mp hs
          rw [declared_of_start hr hid, List.mem_singleton] at h
          exact ⟨lines.length, last, tag, by simp, hr, hid, h⟩
        · rw [declared_of_not_starts (by simpa using hs)] at h
          simp at h
    · rintro ⟨i, raw, tag, hi, hr, hid, rfl⟩
      by_cases hlt : i < lines.length
      · rw [List.getElem?_append_left hlt] at hi
        exact .inl ⟨i, raw, tag, hi, hr, hid, rfl⟩
      · have hlen : i < lines.length + 1 := by
          simpa using (List.getElem?_eq_some_iff.mp hi).1
        obtain rfl : i = lines.length := by omega
        obtain rfl : last = raw := by simpa using hi
        exact .inr (by simp [declared_of_start hr hid])

theorem span_eq_drop (lines : List Text) :
    span s id lines = lines.drop (lines.length - (span s id lines).length) := by
  by_cases h : span s id lines = []
  · simp [h]
  · obtain ⟨before, raw, rest, hl, hs, -⟩ := span_eq_cons h
    rw [hs, hl]
    simp

theorem Completes.exists_start {lines : List Text} {raw : Text} {b : Block}
    (h : Completes s resolve lines raw b) {n : Nat} {t : Target}
    (ht : b.targets.find? n = some t) :
    ∃ i x tag, n = i + 1 ∧ lines[i]? = some x ∧ reads s x = .start tag ∧ tag.id = b.id ∧
      t = targetOf resolve tag x := by
  have hm := SortedMap.mem_entries_iff.mpr ht
  by_cases ho : span s b.id lines = []
  · simp [(h.orphan ho).2] at hm
  · rw [(h.block ho).targets_eq, mem_declared] at hm
    obtain ⟨i, x, tag, hx, hr, hid, he⟩ := hm
    rw [span_eq_drop, List.getElem?_drop] at hx
    obtain ⟨rfl, rfl⟩ := Prod.mk.inj he
    exact ⟨_, x, tag, by simp only [firstOf]; omega, hx, hr, hid, rfl⟩

theorem exists_start_of_mem_events {lines : List Text} {b : Block}
    (hb : b ∈ completed (events s resolve lines)) {n : Nat} {t : Target}
    (ht : b.targets.find? n = some t) :
    ∃ i x tag, n = i + 1 ∧ lines[i]? = some x ∧ reads s x = .start tag ∧ tag.id = b.id ∧
      t = targetOf resolve tag x := by
  obtain ⟨pre, raw, post, rfl, hc⟩ := completes_of_mem_events hb
  obtain ⟨i, x, tag, hn, hx, hr, hid, he⟩ := hc.exists_start ht
  have hi := (List.getElem?_eq_some_iff.mp hx).1
  exact ⟨i, x, tag, hn, by rw [List.getElem?_append_left hi, hx], hr, hid, he⟩

theorem Completes.content_sublist {lines : List Text} {raw : Text} {b : Block}
    (h : Completes s resolve lines raw b) : b.content.Sublist lines := by
  by_cases ho : span s b.id lines = []
  · rw [(h.orphan ho).1]
    exact List.nil_sublist lines
  · have hspan : (span s b.id lines).Sublist lines := by
      rw [span_eq_drop]
      exact List.drop_sublist _ _
    rw [(h.block ho).content_eq]
    exact List.filter_sublist.trans hspan

/-- A block's content are lines of the file, in their order. -/
theorem content_sublist_of_mem_events {lines : List Text} {b : Block}
    (hb : b ∈ completed (events s resolve lines)) : b.content.Sublist lines := by
  obtain ⟨pre, raw, post, rfl, hc⟩ := completes_of_mem_events hb
  exact hc.content_sublist.trans (List.sublist_append_left _ _)

end BlockSync.Block
