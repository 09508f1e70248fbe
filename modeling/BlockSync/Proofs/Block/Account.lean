import BlockSync.Proofs.Block.Closed
import Mathlib.Data.List.Nodup

/-! The full account of the lines of one id. Each end tag reports one closed block or one stray end
tag, in the order of the lines, and each declaration of a block without an end tag is reported as
unclosed. -/

namespace BlockSync.Block

variable {s : TagSyntax} {resolve : Text → Resolved} {id : Text} {pre : List Text} {state : State}

/-- The line is an end tag of the id at which no block of the id is open. -/
structure Stray (s : TagSyntax) (lines : List Text) (id : Text) (last : Nat) (tag : Tag.End) :
    Prop where
  finish : ∃ raw, lines[last]? = some raw ∧ reads s raw = .finish tag
  id_eq : tag.id = id
  fresh : ∀ i < last, StartsAt s lines id i → ∃ j, i < j ∧ j < last ∧ EndsAt s lines id j

/-- What is reported at an end tag: the block that it closes, or, if none is open, that there is
none and an empty block. -/
inductive EndsWith (s : TagSyntax) (resolve : Text → Resolved) (lines : List Text) (id : Text)
    (last : Nat) : List Event → Prop
  | closed (b : Block) (first : Nat) (raw : Text) (tag : Tag.Start) (id_eq : b.id = id)
      (agrees : Matches s resolve lines first last b) (head : lines[first]? = some raw)
      (reads_head : reads s raw = .start tag) (comment_eq : b.comment = tag.style) :
      EndsWith s resolve lines id last [.completed b]
  | stray (tag : Tag.End) (h : Stray s lines id last tag) :
      EndsWith s resolve lines id last
        [.problem (.endTagWithoutStartTag (last + 1) id),
          .completed ⟨id, [], ∅, tag.style, last + 1⟩]

/-- The lines that end a block of the id, the first line having index `n`. -/
def endsFrom (s : TagSyntax) (id : Text) (n : Nat) (lines : List Text) : List Nat :=
  ((lines.zipIdx n).filter fun e => ends s id e.1).map Prod.snd

/-- What an end tag of the id reports. -/
def ofEnd (id : Text) : Event → Bool
  | .completed b => b.id == id
  | .problem x => x.problem == .endTagWithoutStartTag && x.id == some id

/-- The declarations that are reported to lack their end tag. -/
def unclosed (events : List Event) : List Diagnostic :=
  events.filterMap fun
    | .problem x => if x.problem = .startTagWithoutEndTag then some x else none
    | .completed _ => none

theorem endsFrom_cons (n : Nat) (raw : Text) (rest : List Text) :
    endsFrom s id n (raw :: rest) =
      if ends s id raw then n :: endsFrom s id (n + 1) rest else endsFrom s id (n + 1) rest := by
  by_cases h : ends s id raw = true <;> simp [endsFrom, h]

theorem getElem?_span (lines : List Text) (k : Nat) :
    (span s id lines)[k]? = lines[lines.length - (span s id lines).length + k]? := by
  conv_lhs => rw [span_eq_drop]
  rw [List.getElem?_drop]

/-- An end tag of the id reports as it should. -/
theorem Describes.endsWith_feed (h : Describes s resolve pre state) {raw : Text}
    (he : Block.ends s id raw = true) (post : List Text) :
    EndsWith s resolve (pre ++ raw :: post) id pre.length (Block.feed s resolve state raw).2 := by
  obtain ⟨tag, hr, rfl⟩ := ends_iff.mp he
  rw [feed_of_finish hr]
  by_cases ho : span s tag.id pre = []
  · rw [h.none ho, h.line_eq]
    refine .stray tag ⟨⟨raw, by simp, hr⟩, rfl, ?_⟩
    intro i hi hs
    rw [startsAt_append_left hi] at hs
    obtain ⟨j, hij, hj⟩ := span_eq_nil_iff.mp ho i hs
    exact ⟨j, hij, hj.lt, (endsAt_append_left hj.lt).mpr hj⟩
  · obtain ⟨block, hb, hspans⟩ := h.some ho
    rw [hb, h.line_eq]
    have hc : Completes s resolve pre raw
        ⟨tag.id, block.content, block.targets, block.comment, pre.length + 1⟩ :=
      ⟨he, rfl, fun hn => absurd hn ho, fun _ => hspans⟩
    obtain ⟨x, rest, start, hx, hread, -, hstyle⟩ := hspans.head
    have hhead : pre[pre.length - (span s tag.id pre).length]? = Option.some x := by
      have hzero : (span s tag.id pre)[0]? = Option.some x := by
        rw [hx]
        rfl
      rwa [getElem?_span, Nat.add_zero] at hzero
    have hlt := (List.getElem?_eq_some_iff.mp hhead).1
    exact .closed _ _ x start rfl (hc.matches_span ho post)
      ((List.getElem?_append_left hlt).trans hhead) hread hstyle

theorem EndsWith.filter_eq {lines : List Text} {last : Nat} {group : List Event}
    (h : EndsWith s resolve lines id last group) : group.filter (ofEnd id) = group := by
  cases h with
  | closed b first raw tag id_eq => simp [ofEnd, id_eq]
  | stray tag h => simp [ofEnd, Diagnostic.endTagWithoutStartTag, Diagnostic.onLine]

theorem problem_ne_of_mem_declarationProblems {block : Opened} {line : Nat} {tag : Tag.Start}
    {declaration : Text} {resolved : Resolved} {x : Diagnostic}
    (h : x ∈ declarationProblems block line tag declaration resolved) :
    x.problem ≠ .endTagWithoutStartTag ∧ x.problem ≠ .startTagWithoutEndTag := by
  obtain ⟨span, rfl⟩ | ⟨-, span, -, rfl⟩ | rfl | rfl := mem_declarationProblems h
  · exact ⟨nofun, nofun⟩
  · exact ⟨nofun, nofun⟩
  · exact ⟨nofun, nofun⟩
  · exact ⟨nofun, nofun⟩

theorem filter_feed_of_not_ends {raw : Text} (he : ends s id raw = false) :
    (feed s resolve state raw).2.filter (ofEnd id) = [] := by
  rw [List.filter_eq_nil_iff]
  cases hr : reads s raw with
  | start tag =>
    rw [feed_of_start hr]
    intro e hm
    obtain ⟨x, hx, rfl⟩ := List.mem_map.mp hm
    simp [ofEnd, (problem_ne_of_mem_declarationProblems hx).1]
  | finish tag =>
    have hid : tag.id ≠ id := by simpa [ends, hr] using he
    rw [feed_of_finish hr]
    cases state.opened.find? tag.id with
    | none => simp [ofEnd, hid, Diagnostic.endTagWithoutStartTag, Diagnostic.onLine]
    | some block => simp [ofEnd, hid]
  | badStart fault =>
    simp [feed_of_badStart hr, ofEnd, Diagnostic.malformedStartTag, Diagnostic.onLine]
  | badEnd fault =>
    simp [feed_of_badEnd hr, ofEnd, Diagnostic.malformedEndTag, Diagnostic.onLine]
  | content => simp [feed_of_content hr]

/-- The groups of events at the end tags among the lines still to be read. -/
theorem Describes.exists_groups (h : Describes s resolve pre state) (id : Text)
    (more : List Text) :
    ∃ groups, List.Forall₂ (EndsWith s resolve (pre ++ more) id) (endsFrom s id pre.length more)
        groups ∧
      (Block.feedAll s resolve state more).2.filter (ofEnd id) = groups.flatten := by
  induction more generalizing pre state with
  | nil => exact ⟨[], .nil, rfl⟩
  | cons raw more ih =>
    obtain ⟨groups, hall, hflat⟩ := ih (h.feed raw)
    have hlines : pre ++ [raw] ++ more = pre ++ raw :: more := by simp
    have hlen : (pre ++ [raw]).length = pre.length + 1 := by simp
    rw [hlines, hlen] at hall
    rw [feedAll_cons, List.filter_append, hflat, endsFrom_cons]
    by_cases he : Block.ends s id raw = true
    · have hgroup := h.endsWith_feed he more
      rw [if_pos he, hgroup.filter_eq]
      exact ⟨_ :: groups, .cons hgroup hall, rfl⟩
    · rw [if_neg he, filter_feed_of_not_ends (by simpa using he)]
      exact ⟨groups, hall, rfl⟩

theorem startTagWithoutEndTag_inj {n n' : Nat} {id id' : Text}
    (h : Diagnostic.startTagWithoutEndTag n id = .startTagWithoutEndTag n' id') :
    n = n' ∧ id = id' := by
  simp only [Diagnostic.startTagWithoutEndTag, Diagnostic.onLine, Location.ofLine,
    Diagnostic.mk.injEq, Option.some.injEq, Location.mk.injEq] at h
  exact ⟨h.2.2.2.1.1, h.1⟩

/-- What `finish` reports are unclosed declarations and nothing else. -/
theorem eq_map_unclosed {events : List Event}
    (h : ∀ e ∈ events, ∃ line id, e = .problem (.startTagWithoutEndTag line id)) :
    events = (unclosed events).map .problem := by
  induction events with
  | nil => rfl
  | cons e events ih =>
    obtain ⟨line, id, rfl⟩ := h e (by simp)
    have hrest := ih fun e' he' => h e' (by simp [he'])
    have hcons : unclosed (.problem (.startTagWithoutEndTag line id) :: events) =
        .startTagWithoutEndTag line id :: unclosed events := rfl
    rw [hcons, List.map_cons, ← hrest]

theorem finish_eq (state : State) : finish state = (unclosed (finish state)).map .problem := by
  apply eq_map_unclosed
  intro e he
  obtain ⟨id, block, line, -, -, rfl⟩ := mem_finish.mp he
  exact ⟨line, id, rfl⟩

theorem nodup_finish (state : State) : (finish state).Nodup := by
  rw [finish, List.nodup_flatMap]
  constructor
  · rintro ⟨id, block⟩ -
    refine block.targets.nodup_keys.map fun n n' h => ?_
    exact (startTagWithoutEndTag_inj (Event.problem.inj h)).1
  · refine state.opened.sorted.imp fun {a b} hlt => ?_
    intro e ha hb
    obtain ⟨n, -, rfl⟩ := List.mem_map.mp ha
    obtain ⟨n', -, he⟩ := List.mem_map.mp hb
    have hid := (startTagWithoutEndTag_inj (Event.problem.inj he)).2
    simp [hid] at hlt

theorem unclosed_feedAll (state : State) (lines : List Text) :
    unclosed (feedAll s resolve state lines).2 = [] := by
  rw [unclosed, List.filterMap_eq_nil_iff]
  intro e he
  obtain ⟨pre, raw, post, -, hfeed⟩ := mem_feedAll.mp he
  cases e with
  | completed b => rfl
  | problem x =>
    suffices hne : x.problem ≠ .startTagWithoutEndTag by simp [hne]
    obtain ⟨tag, -, hx⟩ | ⟨id, rfl⟩ | ⟨fault, rfl | rfl⟩ := problem_of_feed hfeed
    · exact (problem_ne_of_mem_declarationProblems hx).2
    · exact nofun
    · exact nofun
    · exact nofun

theorem unclosed_events (lines : List Text) : unclosed (events s resolve lines) =
    unclosed (finish (feedAll s resolve .initial lines).1) := by
  rw [events, unclosed, List.filterMap_append, ← unclosed, ← unclosed, unclosed_feedAll,
    List.nil_append]

theorem Unclosed.span_ne_nil {lines : List Text} {first : Nat} (h : Unclosed s lines id first) :
    span s id lines ≠ [] := by
  intro ho
  obtain ⟨j, hj, he⟩ := span_eq_nil_iff.mp ho first h.starts
  exact h.whole j hj he

/-- Two openings of one id are in the same line. -/
theorem Unclosed.unique {lines : List Text} {first first' : Nat} (h : Unclosed s lines id first)
    (h' : Unclosed s lines id first') : first = first' := by
  by_contra hne
  rcases Nat.lt_or_gt_of_ne hne with hlt | hlt
  · obtain ⟨j, hj, -, he⟩ := h'.fresh first hlt h.starts
    exact h.whole j hj he
  · obtain ⟨j, hj, -, he⟩ := h.fresh first' hlt h'.starts
    exact h'.whole j hj he

/-- The declarations that `finish` reports are those of the blocks without an end tag. -/
theorem Describes.mem_finish_iff {lines : List Text} (h : Describes s resolve lines state)
    {e : Event} : e ∈ finish state ↔ ∃ id first i, Unclosed s lines id first ∧ first ≤ i ∧
      StartsAt s lines id i ∧ e = .problem (.startTagWithoutEndTag (i + 1) id) := by
  rw [mem_finish]
  constructor
  · rintro ⟨id, block, line, hb, hl, rfl⟩
    have ho : span s id lines ≠ [] := fun ho => by simp [h.none ho] at hb
    obtain ⟨block', hb', hspans⟩ := h.some ho
    obtain rfl : block = block' := Option.some.inj (hb.symm.trans hb')
    obtain ⟨e, he, rfl⟩ := List.mem_map.mp hl
    rw [hspans.targets_eq, mem_declared] at he
    obtain ⟨k, raw, tag, hk, hr, hid, rfl⟩ := he
    rw [getElem?_span] at hk
    refine ⟨id, _, _, unclosed_of_span ho, Nat.le_add_right _ k,
      ⟨raw, hk, starts_iff.mpr ⟨tag, hr, hid⟩⟩, ?_⟩
    rw [firstOf, Nat.add_right_comm]
  · rintro ⟨id, first, i, hun, hi, ⟨raw, hraw, hs⟩, rfl⟩
    have ho := hun.span_ne_nil
    obtain ⟨block, hb, hspans⟩ := h.some ho
    obtain ⟨tag, hr, hid⟩ := starts_iff.mp hs
    have hfirst := hun.unique (unclosed_of_span ho)
    obtain ⟨k, rfl⟩ := Nat.exists_eq_add_of_le hi
    rw [hfirst, ← getElem?_span] at hraw
    refine ⟨id, block, first + k + 1, hb, ?_, rfl⟩
    have hm : (first + k + 1, targetOf resolve tag raw) ∈ block.targets.entries := by
      rw [hspans.targets_eq, mem_declared]
      refine ⟨k, raw, tag, hraw, hr, hid, ?_⟩
      rw [firstOf, ← hfirst, Nat.add_right_comm]
    exact List.mem_map_of_mem hm

theorem mem_unclosed {lines : List Text} {x : Diagnostic} :
    x ∈ unclosed (events s resolve lines) ↔ ∃ id first i, Unclosed s lines id first ∧ first ≤ i ∧
      StartsAt s lines id i ∧ x = .startTagWithoutEndTag (i + 1) id := by
  have hd : Describes s resolve ([] ++ lines) (feedAll s resolve .initial lines).1 :=
    Describes.initial.feedAll lines
  have hmem : x ∈ unclosed (events s resolve lines) ↔
      Event.problem x ∈ finish (feedAll s resolve .initial lines).1 := by
    rw [unclosed_events]
    conv_rhs => rw [finish_eq]
    simp only [List.mem_map, Event.problem.injEq, exists_eq_right]
  rw [hmem, hd.mem_finish_iff]
  simp only [List.nil_append, Event.problem.injEq]

theorem nodup_unclosed (lines : List Text) : (unclosed (events s resolve lines)).Nodup := by
  have hn := nodup_finish (feedAll s resolve .initial lines).1
  rw [finish_eq] at hn
  rw [unclosed_events]
  exact hn.of_map _

theorem countP_eq_one {α : Type} [DecidableEq α] {l : List α} {p : α → Bool} {a : α}
    (hn : l.Nodup) (ha : a ∈ l) (h : ∀ b ∈ l, p b = true ↔ b = a) : l.countP p = 1 := by
  have hc : l.countP p = l.countP (· == a) := by
    apply List.countP_congr
    intro b hb
    rw [h b hb, beq_iff_eq]
  rw [hc]
  exact List.count_eq_one_of_mem hn ha

theorem Closed.last_unique {lines : List Text} {first last first' last' i : Nat}
    (h : Closed s lines id first last) (h' : Closed s lines id first' last') (hi : first ≤ i)
    (hil : i < last) (hi' : first' ≤ i) (hil' : i < last') : last = last' := by
  by_contra hne
  rcases Nat.lt_or_gt_of_ne hne with hlt | hlt
  · exact h'.whole last (by omega) hlt h.ends
  · exact h.whole last' (by omega) hlt h'.ends

/-- A completed block that holds the declaration of a line spans that line. -/
theorem exists_matches_of_contains {lines : List Text} {i : Nat} (hs : StartsAt s lines id i)
    {b : Block} (hb : b ∈ completed (events s resolve lines))
    (hc : b.targets.contains (i + 1) = true) :
    b.id = id ∧ ∃ first last, Matches s resolve lines first last b ∧ first ≤ i ∧ i < last := by
  obtain ⟨t, ht⟩ := SortedMap.contains_iff.mp hc
  have hne : b.targets.isEmpty = false := by
    apply Bool.eq_false_iff.mpr
    intro he
    simp [SortedMap.find?, SortedMap.isEmpty_iff.mp he] at ht
  obtain ⟨first, last, hm⟩ := matches_of_mem_events hb hne
  obtain ⟨j, raw, tag, hj, hfj, hjl, hraw, hr, hid, -⟩ := (hm.find?_targets _ _).mp ht
  obtain rfl : i = j := by omega
  obtain ⟨raw', hraw', hs'⟩ := hs
  obtain rfl : raw = raw' := Option.some.inj (hraw.symm.trans hraw')
  obtain ⟨tag', hr', hid'⟩ := starts_iff.mp hs'
  obtain rfl : tag = tag' := Tag.Line.start.inj (hr.symm.trans hr')
  exact ⟨hid.symm.trans hid', first, last, hm, hfj, hjl⟩

theorem nodup_completed (lines : List Text) :
    ((completed (events s resolve lines)).map endLine).Nodup :=
  List.pairwise_map.mpr ((pairwise_completed_events lines).imp Nat.ne_of_lt)

theorem countP_completed_of_ended {lines : List Text} {i : Nat} (hs : StartsAt s lines id i)
    (hex : ∃ j, i < j ∧ EndsAt s lines id j) :
    (completed (events s resolve lines)).countP (·.targets.contains (i + 1)) = 1 := by
  obtain ⟨first, last, hclosed, hfi, hil⟩ := exists_closed_of_start hs hex
  obtain ⟨b, hb, hid, hm⟩ := hclosed.exists_matches resolve
  refine countP_eq_one (nodup_completed lines).of_map hb fun b' hb' => ⟨fun hc => ?_, ?_⟩
  · -- a block ends at the first end tag behind its lines, so the two end together
    obtain ⟨hid', first', last', hm', hfi', hil'⟩ := exists_matches_of_contains hs hb' hc
    have hlast : last' = last :=
      (hid' ▸ hm'.closed).last_unique hclosed hfi' hil' hfi hil
    have hend : b'.endLine = b.endLine := by rw [hm'.endLine_eq, hm.endLine_eq, hlast]
    exact List.inj_on_of_nodup_map (nodup_completed lines) hb' hb hend
  · rintro rfl
    obtain ⟨raw, hraw, hr⟩ := hs
    obtain ⟨tag, hr, htag⟩ := starts_iff.mp hr
    exact SortedMap.contains_iff.mpr ⟨targetOf resolve tag raw, (hm.find?_targets _ _).mpr
      ⟨i, raw, tag, rfl, hfi, hil, hraw, hr, htag.trans hid.symm, rfl⟩⟩

theorem countP_completed_of_open {lines : List Text} {i : Nat} (hs : StartsAt s lines id i)
    (hno : ¬∃ j, i < j ∧ EndsAt s lines id j) :
    (completed (events s resolve lines)).countP (·.targets.contains (i + 1)) = 0 := by
  rw [List.countP_eq_zero]
  intro b hb hc
  obtain ⟨rfl, first, last, hm, -, hil⟩ := exists_matches_of_contains hs hb hc
  exact hno ⟨last, hil, hm.closed.ends⟩

theorem line?_startTagWithoutEndTag (n : Nat) (id : Text) :
    (Diagnostic.startTagWithoutEndTag n id).line? = some n := rfl

/-- A line starts a block of one id. -/
theorem StartsAt.unique {lines : List Text} {id' : Text} {i : Nat} (h : StartsAt s lines id i)
    (h' : StartsAt s lines id' i) : id = id' := by
  obtain ⟨raw, hraw, hs⟩ := h
  obtain ⟨raw', hraw', hs'⟩ := h'
  obtain rfl : raw = raw' := Option.some.inj (hraw.symm.trans hraw')
  obtain ⟨tag, hr, rfl⟩ := starts_iff.mp hs
  obtain ⟨tag', hr', rfl⟩ := starts_iff.mp hs'
  rw [Tag.Line.start.inj (hr.symm.trans hr')]

theorem countP_unclosed_of_ended {lines : List Text} {i : Nat} (hs : StartsAt s lines id i)
    (hex : ∃ j, i < j ∧ EndsAt s lines id j) :
    (unclosed (events s resolve lines)).countP (·.line? == some (i + 1)) = 0 := by
  rw [List.countP_eq_zero]
  intro x hx hline
  obtain ⟨id', first, i', hun, hi', hs', rfl⟩ := mem_unclosed.mp hx
  obtain rfl : i' = i := by simpa [line?_startTagWithoutEndTag] using hline
  obtain rfl := hs.unique hs'
  obtain ⟨j, hj, he⟩ := hex
  exact hun.whole j (by omega) he

theorem countP_unclosed_of_open {lines : List Text} {i : Nat} (hs : StartsAt s lines id i)
    (hno : ¬∃ j, i < j ∧ EndsAt s lines id j) :
    (unclosed (events s resolve lines)).countP (·.line? == some (i + 1)) = 1 := by
  have ho : span s id lines ≠ [] := fun ho => hno (span_eq_nil_iff.mp ho i hs)
  have hun := unclosed_of_span ho
  -- the block is open from before this line on, or an end tag would follow
  have hfirst : lines.length - (span s id lines).length ≤ i := by
    by_contra hlate
    obtain ⟨j, hj, -, he⟩ := hun.fresh i (by omega) hs
    exact hno ⟨j, hj, he⟩
  refine countP_eq_one (nodup_unclosed lines)
    (mem_unclosed.mpr ⟨id, _, i, hun, hfirst, hs, rfl⟩) fun x hx => ⟨fun hline => ?_, ?_⟩
  · obtain ⟨id', first, i', -, -, hs', rfl⟩ := mem_unclosed.mp hx
    obtain rfl : i' = i := by simpa [line?_startTagWithoutEndTag] using hline
    rw [hs.unique hs']
  · rintro rfl
    simp [line?_startTagWithoutEndTag]

/-- All that reading lines says about their tags. -/
structure Account (s : TagSyntax) (resolve : Text → Resolved) (lines : List Text) : Prop where
  ends : ∀ id, ∃ groups, List.Forall₂ (EndsWith s resolve lines id) (endsFrom s id 0 lines) groups ∧
    (events s resolve lines).filter (ofEnd id) = groups.flatten
  finish_eq : finish (feedAll s resolve .initial lines).1 =
    (unclosed (events s resolve lines)).map .problem
  nodup_unclosed : (unclosed (events s resolve lines)).Nodup
  mem_unclosed : ∀ x, x ∈ unclosed (events s resolve lines) ↔ ∃ id first i,
    Unclosed s lines id first ∧ first ≤ i ∧ StartsAt s lines id i ∧
      x = .startTagWithoutEndTag (i + 1) id
  once : ∀ id i, StartsAt s lines id i →
    (completed (events s resolve lines)).countP (·.targets.contains (i + 1)) +
      (unclosed (events s resolve lines)).countP (·.line? == some (i + 1)) = 1

theorem account_events (s : TagSyntax) (resolve : Text → Resolved) (lines : List Text) :
    Account s resolve lines where
  ends id := by
    obtain ⟨groups, hall, hflat⟩ := Describes.initial.exists_groups id lines
    refine ⟨groups, hall, ?_⟩
    have hfinish : (finish (feedAll s resolve .initial lines).1).filter (ofEnd id) = [] := by
      rw [List.filter_eq_nil_iff]
      intro e he
      obtain ⟨id', block, line, -, -, rfl⟩ := mem_finish.mp he
      simp [ofEnd, Diagnostic.startTagWithoutEndTag, Diagnostic.onLine]
    rw [events, List.filter_append, hflat, hfinish, List.append_nil]
  finish_eq := by rw [unclosed_events, ← finish_eq]
  nodup_unclosed := nodup_unclosed lines
  mem_unclosed _ := mem_unclosed
  once id i hs := by
    by_cases hex : ∃ j, i < j ∧ EndsAt s lines id j
    · rw [countP_completed_of_ended hs hex, countP_unclosed_of_ended hs hex]
    · rw [countP_completed_of_open hs hex, countP_unclosed_of_open hs hex]

end BlockSync.Block
