import BlockSync.Proofs.Block.Completed
import BlockSync.Proofs.Tag.Syntax
import BlockSync.Proofs.Text.Line
import Mathlib.Data.List.Forall2

/-! Lines revised one by one: a declaration that repeats the target of an earlier one of its block
goes, and others may get another checksum. Whatever else is wrong with the lines, the revised ones
complete the same blocks but for the revised declarations. If repeated targets are all that was
wrong, then nothing is wrong with them. -/

namespace BlockSync.Block

open Line (Whole)
open Tag (isCommentEnd)

variable {s : TagSyntax} {resolve : Text → Resolved} {amend : Tag.Start → Option Text}

/-- Whether the target of a start tag is one of the open block's already. -/
def repeats (resolve : Text → Resolved) (state : State) (tag : Tag.Start) : Bool :=
  (blockFor state tag).targets.values.any (·.kind == (resolve tag.target).kind)

/-- A start tag that gets the checksum `amend` says, if it says one. -/
def amendLine (amend : Tag.Start → Option Text) (tag : Tag.Start) (line : Line) : Line :=
  match amend tag with
  | some checksum => ⟨tag.render checksum tag.target, line.terminator⟩
  | none => line

def reviseLine (s : TagSyntax) (resolve : Text → Resolved) (amend : Tag.Start → Option Text)
    (state : State) (line : Line) : List Line :=
  match s.classify line.text with
  | .start tag => if repeats resolve state tag then [] else [amendLine amend tag line]
  | _ => [line]

def revise (s : TagSyntax) (resolve : Text → Resolved) (amend : Tag.Start → Option Text) :
    State → List Line → List Line
  | _, [] => []
  | state, line :: rest =>
    reviseLine s resolve amend state line ++
      revise s resolve amend (feed s resolve state line.raw).1 rest

def amendTarget (s : TagSyntax) (amend : Tag.Start → Option Text) (target : Target) : Target :=
  match s.classify target.declaration with
  | .start tag =>
    match amend tag with
    | some checksum =>
      { target with
        checksum := if checksum = [] then none else some checksum
        declaration := tag.render checksum tag.target }
    | none => target
  | _ => target

/-- The first declaration of each target. -/
def firsts (targets : List Target) : List Target :=
  targets.foldl (fun kept t => if kept.any (·.kind == t.kind) then kept else kept ++ [t]) []

theorem firsts_concat (targets : List Target) (t : Target) :
    firsts (targets ++ [t]) =
      if (firsts targets).any (·.kind == t.kind) then firsts targets else firsts targets ++ [t] := by
  simp [firsts]

theorem any_firsts (targets : List Target) (kind : TargetKind) :
    (firsts targets).any (·.kind == kind) = targets.any (·.kind == kind) := by
  induction targets using List.reverseRecOn with
  | nil => rfl
  | append_singleton targets t ih =>
    rw [firsts_concat, List.any_append, ← ih]
    split
    next h =>
      by_cases hk : t.kind = kind
      · subst hk
        simp [h]
      · simp [hk]
    next => simp

theorem firsts_sublist (targets : List Target) : (firsts targets).Sublist targets := by
  induction targets using List.reverseRecOn with
  | nil => exact List.Sublist.refl _
  | append_singleton targets t ih =>
    rw [firsts_concat]
    split
    next => exact ih.trans (List.sublist_append_left _ _)
    next => exact ih.append (List.Sublist.refl _)

/-- Of the declarations of one target the first one is left. -/
theorem filter_firsts (targets : List Target) (kind : TargetKind) :
    (firsts targets).filter (·.kind == kind) = (targets.find? (·.kind == kind)).toList := by
  induction targets using List.reverseRecOn with
  | nil => rfl
  | append_singleton targets t ih =>
    rw [firsts_concat, any_firsts, List.find?_append]
    by_cases hk : t.kind = kind
    · subst hk
      cases hf : targets.find? (·.kind == t.kind) with
      | some first =>
        have hkind := List.find?_some hf
        have hany : targets.any (·.kind == t.kind) = true :=
          List.any_eq_true.mpr ⟨first, List.mem_of_find?_eq_some hf, hkind⟩
        rw [if_pos hany, ih, hf]
        rfl
      | none =>
        have hany : targets.any (·.kind == t.kind) = false := by
          simpa using List.find?_eq_none.mp hf
        rw [if_neg (by simp [hany]), List.filter_append, ih, hf]
        simp
    · have hother : [t].filter (·.kind == kind) = [] ∧ [t].find? (·.kind == kind) = none := by
        simp [hk]
      rw [hother.2, Option.or_none, ← ih]
      split
      next => rfl
      next => rw [List.filter_append, hother.1, List.append_nil]

@[simp]
theorem kind_amendTarget (target : Target) : (amendTarget s amend target).kind = target.kind := by
  unfold amendTarget
  split
  next => split <;> rfl
  next => rfl

theorem any_amendTarget (targets : List Target) (kind : TargetKind) :
    (targets.map (amendTarget s amend)).any (·.kind == kind) = targets.any (·.kind == kind) := by
  simp [List.any_map, Function.comp_def]

/-- An open block of the revised lines. -/
structure Revises (s : TagSyntax) (amend : Tag.Start → Option Text) (b b' : Opened) : Prop where
  content_eq : b'.content = b.content
  values_eq : b'.targets.values = (firsts b.targets.values).map (amendTarget s amend)
  comment_eq : b'.comment = b.comment

/-- A completed block of the revised lines. -/
def RevisesBlock (s : TagSyntax) (amend : Tag.Start → Option Text) (b b' : Block) : Prop :=
  b'.id = b.id ∧
    Revises s amend ⟨b.content, b.targets, b.comment⟩ ⟨b'.content, b'.targets, b'.comment⟩

/-- The state that the revised lines lead to. -/
structure Mirrors (s : TagSyntax) (resolve : Text → Resolved) (amend : Tag.Start → Option Text)
    (state state' : State) : Prop where
  reached : ∃ lines, Describes s resolve lines state
  reached' : ∃ lines, Describes s resolve lines state'
  opened : ∀ id, Option.Rel (Revises s amend) (state.opened.find? id) (state'.opened.find? id)

theorem Describes.lt_of_mem_keys {lines : List Text} {state : State}
    (h : Describes s resolve lines state) {id : Text} {block : Opened}
    (hb : state.opened.find? id = Option.some block) {k : Nat} (hk : k ∈ block.targets.keys) :
    k < state.line + 1 := by
  have hspan : span s id lines ≠ [] := by
    intro hs
    rw [h.none hs] at hb
    simp at hb
  obtain ⟨block', hb', hspans⟩ := h.some hspan
  obtain rfl : block' = block := Option.some.inj (hb'.symm.trans hb)
  obtain ⟨e, he, rfl⟩ := List.mem_map.mp hk
  rw [hspans.targets_eq] at he
  have hlt := lt_of_mem_declared he
  have hle : (span s id lines).length ≤ lines.length := length_span_le lines
  rw [h.line_eq]
  rw [firstOf] at hlt
  omega

/-- The declaration of the next line comes behind the others of its block. -/
theorem Describes.values_insert {lines : List Text} {state : State}
    (h : Describes s resolve lines state) (tag : Tag.Start) (t : Target) :
    ((blockFor state tag).targets.insert (state.line + 1) t).values =
      (blockFor state tag).targets.values ++ [t] := by
  have hkeys : ∀ k ∈ (blockFor state tag).targets.keys, compare k (state.line + 1) = .lt := by
    intro k hk
    rw [blockFor] at hk
    cases hb : state.opened.find? tag.id with
    | none => simp [hb, SortedMap.keys] at hk
    | some block =>
      rw [hb, Option.getD_some] at hk
      exact Nat.compare_eq_lt.mpr (h.lt_of_mem_keys hb hk)
  simp [SortedMap.values, SortedMap.entries_insert_last t hkeys]

namespace Mirrors

variable {state state' : State}

theorem initial : Mirrors s resolve amend .initial .initial :=
  ⟨⟨[], .initial⟩, ⟨[], .initial⟩, fun _ => .none⟩

theorem blockFor (h : Mirrors s resolve amend state state') {tag tag' : Tag.Start}
    (hid : tag'.id = tag.id) (hstyle : tag'.style = tag.style) :
    Revises s amend (Block.blockFor state tag) (Block.blockFor state' tag') := by
  rw [Block.blockFor, Block.blockFor, hid, hstyle]
  have hr := h.opened tag.id
  generalize state.opened.find? tag.id = block at hr
  generalize state'.opened.find? tag.id = block' at hr
  cases hr with
  | some hr => exact hr
  | none => exact ⟨rfl, rfl, rfl⟩

end Mirrors

/-- What a start tag becomes reads as what is meant. -/
structure Amends (s : TagSyntax) (amend : Tag.Start → Option Text) (line : Line) : Prop where
  whole : Whole line
  solid : ∀ tag, s.classify line.text = .start tag → ∀ checksum ∈ amend tag,
    Text.Solid checksum ∧ (tag.commentEnd = none → checksum ≠ [] → isCommentEnd tag.target = false)

/-- What a start tag becomes is a line again. -/
structure Sound (s : TagSyntax) (amend : Tag.Start → Option Text) (line : Line) : Prop where
  whole : Whole line
  solid : ∀ tag, s.classify line.text = .start tag → ∀ checksum ∈ amend tag, Text.Solid checksum

theorem Amends.sound {line : Line} (h : Amends s amend line) : Sound s amend line :=
  ⟨h.whole, fun tag hc checksum ha => (h.solid tag hc checksum ha).1⟩

theorem Sound.whole_amendLine {line : Line} (h : Sound s amend line) {tag : Tag.Start}
    (hc : s.classify line.text = .start tag) : Whole (amendLine amend tag line) := by
  unfold amendLine
  split
  next checksum ha =>
    have hsolid := h.solid tag hc checksum ha
    refine h.whole.withText ?_ ?_ (TagSyntax.getLast?_render hc checksum)
    · intro hn
      rcases TagSyntax.mem_render hc hn with hn | hn | hn | hn
      · exact h.whole.newline hn
      · have := hsolid _ hn
        simp [Text.isBlank] at this
      · exact h.whole.newline (TagSyntax.mem_target hc hn)
      · simp at hn
    · rw [Tag.Start.render]
      simp
  next => exact h.whole

/-- What a start tag becomes declares the same target of the same block. -/
structure Restarts (s : TagSyntax) (resolve : Text → Resolved) (amend : Tag.Start → Option Text)
    (line : Line) : Prop where
  whole : Whole line
  reads_amendLine : ∀ tag, s.classify line.text = .start tag →
    ∃ tag', reads s (amendLine amend tag line).raw = .start tag' ∧ tag'.id = tag.id ∧
      tag'.style = tag.style ∧ tag'.target = tag.target ∧
      targetOf resolve tag' (amendLine amend tag line).raw =
        amendTarget s amend (targetOf resolve tag line.raw)

theorem reads_amendLine_of_none {line : Line} (hw : Whole line) {tag : Tag.Start}
    (hc : s.classify line.text = .start tag) (ha : amend tag = none) :
    amendLine amend tag line = line ∧ reads s line.raw = .start tag ∧
      amendTarget s amend (targetOf resolve tag line.raw) = targetOf resolve tag line.raw := by
  have hline : (Line.ofRaw line.raw).text = line.text := by rw [hw.ofRaw_raw]
  refine ⟨by simp only [amendLine, ha], by rw [reads, hline, hc], ?_⟩
  simp only [amendTarget, targetOf, hline, hc, ha]

/-- A line that stays as it is. -/
theorem restarts_none {line : Line} (hw : Whole line) : Restarts s resolve (fun _ => none) line := by
  refine ⟨hw, fun tag hc => ?_⟩
  obtain ⟨he, hr, ht⟩ := @reads_amendLine_of_none s resolve (fun _ => none) line hw tag hc rfl
  rw [he, ht]
  exact ⟨tag, hr, rfl, rfl, rfl, rfl⟩

theorem Amends.restarts (hs : s.Plain) {line : Line} (h : Amends s amend line) :
    Restarts s resolve amend line := by
  refine ⟨h.whole, fun tag hc => ?_⟩
  have hwhole := h.sound.whole_amendLine hc
  have hline : (Line.ofRaw line.raw).text = line.text := by rw [h.whole.ofRaw_raw]
  cases ha : amend tag with
  | none =>
    obtain ⟨he, hr, ht⟩ := reads_amendLine_of_none h.whole hc ha
    rw [he, ht]
    exact ⟨tag, hr, rfl, rfl, rfl, rfl⟩
  | some checksum =>
    have he : amendLine amend tag line = ⟨tag.render checksum tag.target, line.terminator⟩ := by
      simp only [amendLine, ha]
    rw [he] at hwhole ⊢
    have htext : (Line.ofRaw (Line.mk (tag.render checksum tag.target) line.terminator).raw).text =
        tag.render checksum tag.target := by rw [hwhole.ofRaw_raw]
    obtain ⟨hsolid, hend⟩ := h.solid tag hc checksum ha
    obtain ⟨hne, htarget⟩ := TagSyntax.solid_target hc
    obtain ⟨tag', hr, hid, hstyle, ht, hchecksum⟩ :=
      TagSyntax.classify_render hs hc hsolid hne htarget hend
    refine ⟨tag', by rw [reads, htext, hr], hid, hstyle, ht, ?_⟩
    simp only [amendTarget, targetOf, hline, htext, hc, ha, ht, hchecksum]

/-- Nothing but repeated targets is wrong. -/
def OnlyRepeats (events : List Event) : Prop :=
  ∀ x, Event.problem x ∈ events → x.problem = .duplicateTarget

/-- Nothing is wrong with the revised lines, and they complete the revised blocks. -/
structure RevisesEvents (s : TagSyntax) (amend : Tag.Start → Option Text)
    (events events' : List Event) : Prop where
  clean : ∀ x, Event.problem x ∉ events'
  completed : List.Forall₂ (RevisesBlock s amend) (completed events) (completed events')

/-- The revised lines repeat no target, nothing is wrong with them that was not wrong before, and they
complete the revised blocks. -/
structure Follows (s : TagSyntax) (amend : Tag.Start → Option Text) (events events' : List Event) :
    Prop where
  told : ∀ x', Event.problem x' ∈ events' → x'.problem ≠ .duplicateTarget ∧
    ∃ x, Event.problem x ∈ events ∧ x.problem = x'.problem
  completed : List.Forall₂ (RevisesBlock s amend) (completed events) (completed events')

theorem Follows.revisesEvents {events events' : List Event} (h : Follows s amend events events')
    (hp : OnlyRepeats events) : RevisesEvents s amend events events' := by
  refine ⟨fun x' hx' => ?_, h.completed⟩
  obtain ⟨hne, x, hx, he⟩ := h.told x' hx'
  exact hne (he.symm.trans (hp x hx))

theorem Follows.append {front front' back back' : List Event} (h : Follows s amend front front')
    (h' : Follows s amend back back') : Follows s amend (front ++ back) (front' ++ back') := by
  refine ⟨fun x' hx' => ?_, ?_⟩
  · rcases List.mem_append.mp hx' with hx' | hx'
    · obtain ⟨hne, x, hx, he⟩ := h.told x' hx'
      exact ⟨hne, x, List.mem_append_left _ hx, he⟩
    · obtain ⟨hne, x, hx, he⟩ := h'.told x' hx'
      exact ⟨hne, x, List.mem_append_right _ hx, he⟩
  · rw [completed_append, completed_append]
    exact List.rel_append h.completed h'.completed

theorem map_problem_declarationProblems (block : Opened) (line : Nat) (tag : Tag.Start)
    (declaration : Text) (resolved : Resolved) :
    (declarationProblems block line tag declaration resolved).map Diagnostic.problem =
      (if resolved.kind.path?.isSome && !resolved.present then [.fileDoesNotExist] else []) ++
      (if block.targets.values.any (·.kind == resolved.kind) then [.duplicateTarget] else []) ++
      (if block.comment != tag.style then [.differentCommentSyntax] else []) ++
      (if !block.content.isEmpty then [.startTagAfterContent] else []) := by
  simp only [declarationProblems, List.map_append, apply_ite (List.map Diagnostic.problem)]
  rfl

/-- Where the target is new, the same is wrong with its declaration in the revised block. -/
theorem Revises.told {b b' : Opened} (h : Revises s amend b b') {tag tag' : Tag.Start}
    (hstyle : tag'.style = tag.style) {resolved : Resolved}
    (hrep : b.targets.values.any (·.kind == resolved.kind) = false) {line line' : Nat}
    {declaration declaration' : Text} {x' : Diagnostic}
    (hx' : x' ∈ declarationProblems b' line' tag' declaration' resolved) :
    x'.problem ≠ .duplicateTarget ∧
      ∃ x ∈ declarationProblems b line tag declaration resolved, x.problem = x'.problem := by
  have hrep' : b'.targets.values.any (·.kind == resolved.kind) = false := by
    rw [h.values_eq, any_amendTarget, any_firsts, hrep]
  have hkinds : (declarationProblems b' line' tag' declaration' resolved).map Diagnostic.problem =
      (declarationProblems b line tag declaration resolved).map Diagnostic.problem := by
    rw [map_problem_declarationProblems, map_problem_declarationProblems, h.content_eq,
      h.comment_eq, hstyle, hrep, hrep']
  have hm := List.mem_map_of_mem (f := Diagnostic.problem) hx'
  refine ⟨fun he => ?_, ?_⟩
  · rw [he, map_problem_declarationProblems, hrep'] at hm
    simp at hm
  · rw [hkinds] at hm
    exact List.mem_map.mp hm

section

variable {state state' : State} {line : Line}

theorem Mirrors.reached_feed (h : Mirrors s resolve amend state state') (raw : Text)
    (raws : List Text) :
    (∃ lines, Describes s resolve lines (Block.feed s resolve state raw).1) ∧
      ∃ lines, Describes s resolve lines (feedAll s resolve state' raws).1 := by
  obtain ⟨lines, hl⟩ := h.reached
  obtain ⟨lines', hl'⟩ := h.reached'
  exact ⟨⟨_, hl.feed raw⟩, ⟨_, hl'.feedAll raws⟩⟩

theorem Mirrors.feed_repeats (h : Mirrors s resolve amend state state') {tag : Tag.Start}
    (hr : reads s line.raw = .start tag) (hrep : repeats resolve state tag = true) :
    Mirrors s resolve amend (Block.feed s resolve state line.raw).1 state' ∧
      Follows s amend (Block.feed s resolve state line.raw).2 [] := by
  obtain ⟨hl, hl'⟩ := h.reached_feed line.raw []
  obtain ⟨lines, hlines⟩ := h.reached
  refine ⟨⟨hl, hl', fun id => ?_⟩, by simp, ?_⟩
  · rw [feed_of_start hr]
    dsimp only
    rw [SortedMap.find?_insert]
    split
    next hid =>
      subst hid
      have hblock := h.opened tag.id
      cases hb : state.opened.find? tag.id with
      | none => simp [repeats, Block.blockFor, hb, SortedMap.values] at hrep
      | some block =>
        rw [hb] at hblock
        generalize state'.opened.find? tag.id = block' at hblock
        cases hblock with
        | some hrev =>
          have hfor : Block.blockFor state tag = block := by rw [Block.blockFor, hb]; rfl
          have hvalues := hlines.values_insert tag (targetOf resolve tag line.raw)
          have hany : (firsts block.targets.values).any
              (·.kind == (targetOf resolve tag line.raw).kind) = true := by
            rw [any_firsts, ← hfor]
            exact hrep
          rw [hfor] at hvalues ⊢
          refine .some ⟨hrev.content_eq, ?_, hrev.comment_eq⟩
          rw [hvalues, firsts_concat, if_pos hany]
          exact hrev.values_eq
    next => exact h.opened id
  · rw [feed_of_start hr]
    simp [completed]

theorem Mirrors.feed_first (h : Mirrors s resolve amend state state')
    (ha : Restarts s resolve amend line) {tag : Tag.Start} (hr : reads s line.raw = .start tag)
    (hrep : repeats resolve state tag = false) :
    Mirrors s resolve amend (Block.feed s resolve state line.raw).1
        (Block.feed s resolve state' (amendLine amend tag line).raw).1 ∧
      Follows s amend (Block.feed s resolve state line.raw).2
        (Block.feed s resolve state' (amendLine amend tag line).raw).2 := by
  have hclassify : s.classify line.text = .start tag := by
    rw [reads, ha.whole.ofRaw_raw] at hr
    exact hr
  obtain ⟨tag', hr', hid, hstyle, htarget, hamended⟩ := ha.reads_amendLine tag hclassify
  obtain ⟨lines, hlines⟩ := h.reached
  obtain ⟨lines', hlines'⟩ := h.reached'
  have hblock := h.blockFor hid hstyle
  have hany : (firsts (Block.blockFor state tag).targets.values).any
      (·.kind == (targetOf resolve tag line.raw).kind) = false := by
    rw [any_firsts]
    exact hrep
  refine ⟨⟨⟨_, hlines.feed _⟩, ⟨_, hlines'.feed _⟩, fun id => ?_⟩, fun x' hx' => ?_, ?_⟩
  · rw [feed_of_start hr, feed_of_start hr']
    dsimp only
    rw [SortedMap.find?_insert, SortedMap.find?_insert, hid]
    split
    next =>
      refine .some ⟨hblock.content_eq, ?_, hblock.comment_eq⟩
      rw [hlines.values_insert, hlines'.values_insert, firsts_concat, hany, if_neg (by simp),
        List.map_append, hblock.values_eq, hamended]
      rfl
    next => exact h.opened id
  · rw [feed_of_start hr'] at hx'
    obtain ⟨y', hy', he⟩ := List.mem_map.mp hx'
    obtain rfl := Event.problem.inj he
    rw [htarget] at hy'
    obtain ⟨hne, x, hx, hproblem⟩ := hblock.told hstyle hrep hy'
    rw [feed_of_start hr]
    exact ⟨hne, x, List.mem_map_of_mem hx, hproblem⟩
  · rw [feed_of_start hr, feed_of_start hr']
    simp [completed]

theorem Mirrors.feed_finish (h : Mirrors s resolve amend state state') {tag : Tag.End}
    {raw : Text} (hr : reads s raw = .finish tag) :
    Mirrors s resolve amend (Block.feed s resolve state raw).1
        (Block.feed s resolve state' raw).1 ∧
      Follows s amend (Block.feed s resolve state raw).2 (Block.feed s resolve state' raw).2 := by
  obtain ⟨lines, hlines⟩ := h.reached
  obtain ⟨lines', hlines'⟩ := h.reached'
  have hblock := h.opened tag.id
  have hdrop : ∀ id, Option.Rel (Revises s amend) ((state.opened.erase tag.id).find? id)
      ((state'.opened.erase tag.id).find? id) := by
    intro id
    rw [SortedMap.find?_erase, SortedMap.find?_erase]
    split
    next => exact .none
    next => exact h.opened id
  have hfeed : Block.feed s resolve state raw = _ := feed_of_finish hr
  have hfeed' : Block.feed s resolve state' raw = _ := feed_of_finish hr
  have hreached := hlines.feed raw
  have hreached' := hlines'.feed raw
  rw [hfeed] at hreached ⊢
  rw [hfeed'] at hreached' ⊢
  generalize state.opened.find? tag.id = block at hblock hreached
  generalize state'.opened.find? tag.id = block' at hblock hreached'
  cases hblock with
  | none =>
    refine ⟨⟨⟨_, hreached⟩, ⟨_, hreached'⟩, h.opened⟩, fun x' hx' => ?_, ?_⟩
    · have hx : x' = .endTagWithoutStartTag (state'.line + 1) tag.id := by simpa using hx'
      subst hx
      exact ⟨nofun, _, List.mem_cons_self, rfl⟩
    · exact .cons ⟨rfl, rfl, rfl, rfl⟩ .nil
  | some hrev =>
    refine ⟨⟨⟨_, hreached⟩, ⟨_, hreached'⟩, hdrop⟩, by simp, ?_⟩
    exact .cons ⟨rfl, hrev⟩ .nil

theorem Mirrors.feed_content (h : Mirrors s resolve amend state state') {raw : Text}
    (hr : reads s raw = .content) :
    Mirrors s resolve amend (Block.feed s resolve state raw).1
        (Block.feed s resolve state' raw).1 ∧
      Follows s amend (Block.feed s resolve state raw).2 (Block.feed s resolve state' raw).2 := by
  obtain ⟨hl, hl'⟩ := h.reached_feed raw [raw]
  rw [feedAll_singleton] at hl'
  refine ⟨⟨hl, hl', fun id => ?_⟩, ?_, ?_⟩
  · have hblock := h.opened id
    rw [feed_of_content hr, feed_of_content hr]
    dsimp only
    rw [SortedMap.find?_map, SortedMap.find?_map]
    generalize state.opened.find? id = block at hblock
    generalize state'.opened.find? id = block' at hblock
    cases hblock with
    | none => exact .none
    | some hrev => exact .some ⟨by simp [hrev.content_eq], hrev.values_eq, hrev.comment_eq⟩
  · rw [feed_of_content hr]
    simp
  · rw [feed_of_content hr, feed_of_content hr]
    exact .nil

/-- A line with a keyword that is no tag changes nothing. -/
theorem Mirrors.feed_fault (h : Mirrors s resolve amend state state') {raw : Text}
    (problem : Nat → Diagnostic) (hne : ∀ n, (problem n).problem ≠ .duplicateTarget)
    (hproblem : ∀ n m, (problem n).problem = (problem m).problem)
    (hf : ∀ state, Block.feed s resolve state raw =
      (⟨state.line + 1, state.opened⟩, [.problem (problem (state.line + 1))])) :
    Mirrors s resolve amend (Block.feed s resolve state raw).1
        (Block.feed s resolve state' raw).1 ∧
      Follows s amend (Block.feed s resolve state raw).2 (Block.feed s resolve state' raw).2 := by
  obtain ⟨hl, hl'⟩ := h.reached_feed raw [raw]
  rw [feedAll_singleton] at hl'
  rw [hf] at hl hl' ⊢
  rw [hf]
  refine ⟨⟨hl, hl', h.opened⟩, fun x' hx' => ?_, .nil⟩
  obtain rfl : x' = problem (state'.line + 1) := by simpa using hx'
  exact ⟨hne _, _, List.mem_singleton_self _, hproblem _ _⟩

theorem Mirrors.feed (h : Mirrors s resolve amend state state')
    (ha : Restarts s resolve amend line) :
    Mirrors s resolve amend (Block.feed s resolve state line.raw).1
        (feedAll s resolve state' ((reviseLine s resolve amend state line).map Line.raw)).1 ∧
      Follows s amend (Block.feed s resolve state line.raw).2
        (feedAll s resolve state' ((reviseLine s resolve amend state line).map Line.raw)).2 := by
  have hread : reads s line.raw = s.classify line.text := by rw [reads, ha.whole.ofRaw_raw]
  unfold reviseLine
  rw [← hread]
  cases hr : reads s line.raw with
  | start tag =>
    dsimp only
    by_cases hrep : repeats resolve state tag = true
    · rw [if_pos hrep]
      exact h.feed_repeats hr hrep
    · rw [if_neg hrep, List.map_singleton, feedAll_singleton]
      exact h.feed_first ha hr (by simpa using hrep)
  | finish tag =>
    rw [List.map_singleton, feedAll_singleton]
    exact h.feed_finish hr
  | badStart fault =>
    rw [List.map_singleton, feedAll_singleton]
    exact h.feed_fault (.malformedStartTag · fault) (fun _ => nofun) (fun _ _ => rfl)
      fun _ => feed_of_badStart hr
  | badEnd fault =>
    rw [List.map_singleton, feedAll_singleton]
    exact h.feed_fault (.malformedEndTag · fault) (fun _ => nofun) (fun _ _ => rfl)
      fun _ => feed_of_badEnd hr
  | content =>
    rw [List.map_singleton, feedAll_singleton]
    exact h.feed_content hr

end

theorem Mirrors.feedAll {lines : List Line} {state state' : State}
    (h : Mirrors s resolve amend state state') (ha : ∀ line ∈ lines, Restarts s resolve amend line) :
    Mirrors s resolve amend (Block.feedAll s resolve state (lines.map Line.raw)).1
        (Block.feedAll s resolve state'
          ((revise s resolve amend state lines).map Line.raw)).1 ∧
      Follows s amend (Block.feedAll s resolve state (lines.map Line.raw)).2
        (Block.feedAll s resolve state'
          ((revise s resolve amend state lines).map Line.raw)).2 := by
  induction lines generalizing state state' with
  | nil => exact ⟨h, fun x' hx' => absurd hx' List.not_mem_nil, .nil⟩
  | cons line rest ih =>
    obtain ⟨hline, hevents⟩ := h.feed (ha line (by simp))
    obtain ⟨hrest, hmore⟩ := ih hline fun l hl => ha l (List.mem_cons_of_mem _ hl)
    rw [List.map_cons, feedAll_cons, revise, List.map_append, feedAll_append]
    exact ⟨hrest, hevents.append hmore⟩

/-- A block that is open at the end of the revised lines was open at the end of the lines. -/
theorem Mirrors.finish {state state' : State} (h : Mirrors s resolve amend state state') :
    Follows s amend (Block.finish state) (Block.finish state') := by
  refine ⟨fun x' hx' => ?_, by rw [completed_finish, completed_finish]; exact .nil⟩
  obtain ⟨id, block', line', hb', hl', he⟩ := mem_finish.mp hx'
  obtain rfl := Event.problem.inj he
  refine ⟨nofun, ?_⟩
  have hblock := h.opened id
  rw [hb'] at hblock
  cases hb : state.opened.find? id with
  | none =>
    rw [hb] at hblock
    cases hblock
  | some block =>
    rw [hb] at hblock
    cases hblock with
    | some hrev =>
      have hne : block.targets.keys ≠ [] := by
        intro hnil
        have hentries : block.targets.entries = [] := List.map_eq_nil_iff.mp hnil
        have hvalues := hrev.values_eq
        rw [SortedMap.values, SortedMap.values, hentries] at hvalues
        have hentries' : block'.targets.entries = [] := List.map_eq_nil_iff.mp hvalues
        simp [SortedMap.keys, hentries'] at hl'
      obtain ⟨line, hl⟩ := List.exists_mem_of_ne_nil _ hne
      exact ⟨_, mem_finish.mpr ⟨id, block, line, hb, hl, rfl⟩, rfl⟩

/-- Whatever is wrong with lines, the revised lines complete the same blocks with the revised
declarations and repeat no target. -/
theorem follows_revise {lines : List Line} (ha : ∀ line ∈ lines, Restarts s resolve amend line) :
    Follows s amend (events s resolve (lines.map Line.raw))
      (events s resolve ((revise s resolve amend .initial lines).map Line.raw)) := by
  obtain ⟨hstate, hevents⟩ := Mirrors.initial.feedAll ha
  exact hevents.append hstate.finish

/-- If nothing but repeated targets is wrong with lines, then nothing is wrong with the revised
lines, and these complete the same blocks with the revised declarations. -/
theorem revisesEvents_revise (hs : s.Plain) {lines : List Line}
    (ha : ∀ line ∈ lines, Amends s amend line)
    (hp : OnlyRepeats (events s resolve (lines.map Line.raw))) :
    RevisesEvents s amend (events s resolve (lines.map Line.raw))
      (events s resolve ((revise s resolve amend .initial lines).map Line.raw)) :=
  (follows_revise fun line hl => (ha line hl).restarts hs).revisesEvents hp

theorem terminator_amendLine (tag : Tag.Start) (line : Line) :
    (amendLine amend tag line).terminator = line.terminator := by
  unfold amendLine
  split <;> rfl

theorem terminators_reviseLine (state : State) (line : Line) :
    ((reviseLine s resolve amend state line).map Line.terminator).Sublist [line.terminator] := by
  unfold reviseLine
  split
  next tag _ =>
    split
    next => exact List.nil_sublist _
    next => rw [List.map_singleton, terminator_amendLine]
  next => exact List.Sublist.refl _

theorem terminators_revise (state : State) (lines : List Line) :
    ((revise s resolve amend state lines).map Line.terminator).Sublist
      (lines.map Line.terminator) := by
  induction lines generalizing state with
  | nil => exact List.Sublist.refl _
  | cons line rest ih =>
    rw [revise, List.map_append, List.map_cons, ← List.singleton_append]
    exact (terminators_reviseLine state line).append (ih _)

theorem whole_of_mem_revise {lines : List Line} (ha : ∀ line ∈ lines, Sound s amend line)
    {state : State} {line : Line} (h : line ∈ revise s resolve amend state lines) : Whole line := by
  induction lines generalizing state with
  | nil => simp [revise] at h
  | cons first rest ih =>
    rw [revise] at h
    rcases List.mem_append.mp h with h | h
    · have hfirst := ha first (by simp)
      unfold reviseLine at h
      split at h
      next tag hc =>
        split at h
        next => simp at h
        next => exact List.mem_singleton.mp h ▸ hfirst.whole_amendLine hc
      next => exact List.mem_singleton.mp h ▸ hfirst.whole
    · exact ih (fun l hl => ha l (List.mem_cons_of_mem _ hl)) h

theorem cut_revise {lines : List Line} (h : Line.Cut lines)
    (ha : ∀ line ∈ lines, Sound s amend line) (state : State) :
    Line.Cut (revise s resolve amend state lines) := by
  refine ⟨?_, fun line hl => whole_of_mem_revise ha hl⟩
  have hp : (lines.map Line.terminator).Pairwise fun t _ => t ≠ [] := List.pairwise_map.mpr h.1
  exact List.pairwise_map.mp (hp.sublist (terminators_revise state lines))

end BlockSync.Block
