import BlockSync.Proofs.Block.Account
import BlockSync.Proofs.Cache.Noted
import BlockSync.Proofs.Cache.Origin

/-! No problem is found twice. What is wrong with one line is of several kinds, what is wrong with
several lines is told by line, and no line declares something in two completed blocks. -/

namespace BlockSync

namespace Block

variable {s : TagSyntax} {resolve : Text → Resolved} {state : State} {raw : Text} {x : Diagnostic}

def problems (events : List Event) : List Diagnostic :=
  events.filterMap fun
    | .problem x => some x
    | .completed _ => none

theorem mem_problems {events : List Event} : x ∈ problems events ↔ Event.problem x ∈ events := by
  simp only [problems, List.mem_filterMap]
  constructor
  · rintro ⟨e, hm, he⟩
    cases e with
    | problem y => exact Option.some.inj he ▸ hm
    | completed b => simp at he
  · intro hm
    exact ⟨_, hm, rfl⟩

theorem problems_append (front back : List Event) :
    problems (front ++ back) = problems front ++ problems back :=
  List.filterMap_append

theorem problems_map (diagnostics : List Diagnostic) :
    problems (diagnostics.map .problem) = diagnostics := by
  simp [problems, List.filterMap_map]

section Declaration

variable {block : Opened} {line : Nat} {tag : Tag.Start} {declaration : Text} {resolved : Resolved}

def spanOf (line : Nat) (tag : Tag.Start) : Location :=
  ⟨line, some (tag.targetOffset + 1), some (tag.targetOffset + tag.target.byteLength)⟩

theorem ite_sublist_singleton {α : Type} (a : α) (c : Prop) [Decidable c] :
    (if c then [a] else []).Sublist [a] := by
  split
  · exact List.Sublist.refl _
  · exact List.nil_sublist _

theorem declarationProblems_sublist :
    (declarationProblems block line tag declaration resolved).Sublist
      [.fileDoesNotExist (spanOf line tag) tag.id tag.target,
        .duplicateTarget (spanOf line tag) tag.id tag.target declaration,
        .differentCommentSyntax line tag.id tag.style block.comment,
        .startTagAfterContent line tag.id] :=
  (((ite_sublist_singleton _ _).append (ite_sublist_singleton _ _)).append
    (ite_sublist_singleton _ _)).append (ite_sublist_singleton _ _)

theorem nodup_declarationProblems :
    (declarationProblems block line tag declaration resolved).Nodup := by
  refine List.Nodup.sublist declarationProblems_sublist (List.Nodup.of_map (·.problem) ?_)
  have hkinds : [Problem.fileDoesNotExist, .duplicateTarget, .differentCommentSyntax,
      .startTagAfterContent].Nodup := by decide
  exact hkinds

theorem line_of_mem_declarationProblems
    (h : x ∈ declarationProblems block line tag declaration resolved) : x.line? = some line := by
  have hm := declarationProblems_sublist.subset h
  simp only [List.mem_cons, List.not_mem_nil, or_false] at hm
  rcases hm with rfl | rfl | rfl | rfl <;> rfl

end Declaration

theorem line_of_mem_feed (h : Event.problem x ∈ (feed s resolve state raw).2) :
    x.line? = some (state.line + 1) := by
  rcases problem_of_feed h with ⟨tag, -, hx⟩ | ⟨id, rfl⟩ | ⟨fault, rfl | rfl⟩
  · exact line_of_mem_declarationProblems hx
  all_goals rfl

theorem nodup_problems_feed : (problems (feed s resolve state raw).2).Nodup := by
  cases hr : reads s raw with
  | start tag =>
    rw [feed_of_start hr, problems_map]
    exact nodup_declarationProblems
  | finish tag =>
    rw [feed_of_finish hr]
    split
    next => exact List.nodup_nil
    next => exact List.nodup_singleton _
  | badStart fault =>
    rw [feed_of_badStart hr]
    exact List.nodup_singleton _
  | badEnd fault =>
    rw [feed_of_badEnd hr]
    exact List.nodup_singleton _
  | content =>
    rw [feed_of_content hr]
    exact List.nodup_nil

theorem line_of_mem_feedAll {lines : List Text}
    (h : Event.problem x ∈ (feedAll s resolve state lines).2) :
    ∃ n, state.line < n ∧ x.line? = some n := by
  induction lines generalizing state with
  | nil => simp [feedAll] at h
  | cons raw lines ih =>
    rw [feedAll_cons] at h
    rcases List.mem_append.mp h with h | h
    · exact ⟨state.line + 1, Nat.lt_succ_self _, line_of_mem_feed h⟩
    · obtain ⟨n, hn, hx⟩ := ih h
      rw [line_feed] at hn
      exact ⟨n, by omega, hx⟩

theorem nodup_problems_feedAll (lines : List Text) :
    (problems (feedAll s resolve state lines).2).Nodup := by
  induction lines generalizing state with
  | nil => exact List.nodup_nil
  | cons raw lines ih =>
    rw [feedAll_cons, problems_append, List.nodup_append]
    refine ⟨nodup_problems_feed, ih, fun x hx y hy he => ?_⟩
    have hline := line_of_mem_feed (mem_problems.mp hx)
    obtain ⟨n, hn, hlater⟩ := line_of_mem_feedAll (mem_problems.mp hy)
    rw [line_feed] at hn
    rw [← he, hline] at hlater
    have hsame := Option.some.inj hlater
    omega

theorem nodup_problems_finish (state : State) : (problems (finish state)).Nodup := by
  have hn := nodup_finish state
  rw [finish_eq] at hn
  rw [finish_eq, problems_map]
  exact hn.of_map _

/-- The lines of a file report no problem twice. -/
theorem nodup_problems_events (lines : List Text) : (problems (events s resolve lines)).Nodup := by
  rw [events, problems_append, List.nodup_append]
  refine ⟨nodup_problems_feedAll lines, nodup_problems_finish _, fun x hx y hy he => ?_⟩
  -- that a block is left open is only known behind the last line
  obtain ⟨id, block, line, -, -, hlast⟩ := mem_finish.mp (mem_problems.mp hy)
  have hnone : unclosed (feedAll s resolve .initial lines).2 = [] := unclosed_feedAll _ lines
  have hx' := List.filterMap_eq_nil_iff.mp hnone _ (mem_problems.mp hx)
  rw [he, Event.problem.inj hlast] at hx'
  simp [Diagnostic.startTagWithoutEndTag, Diagnostic.onLine] at hx'

theorem line_of_mem_events {lines : List Text} (h : Event.problem x ∈ events s resolve lines) :
    ∃ n, 0 < n ∧ x.line? = some n := by
  rcases List.mem_append.mp h with h | h
  · exact line_of_mem_feedAll h
  · have hd : Describes s resolve ([] ++ lines) (feedAll s resolve .initial lines).1 :=
      Describes.initial.feedAll lines
    obtain ⟨id, first, i, -, -, -, he⟩ := hd.mem_finish_iff.mp h
    exact ⟨i + 1, Nat.succ_pos i, Event.problem.inj he ▸ rfl⟩

theorem pos_of_mem_keys {lines : List Text} {b : Block}
    (hb : b ∈ completed (events s resolve lines)) {n : Nat} (hn : n ∈ b.targets.keys) : 0 < n := by
  obtain ⟨t, ht⟩ := SortedMap.contains_iff.mp (SortedMap.mem_keys_iff.mp hn)
  obtain ⟨i, _, _, rfl, -⟩ := exists_start_of_mem_events hb ht
  exact Nat.succ_pos i

/-- No line declares something in two completed blocks. -/
theorem pairwise_keys (lines : List Text) : (completed (events s resolve lines)).Pairwise
    fun b c => ∀ n ∈ b.targets.keys, n ∉ c.targets.keys := by
  refine (pairwise_completed_events lines).imp_of_mem fun {b c} hb hc hlt n hn hn' => ?_
  obtain ⟨t, ht⟩ := SortedMap.contains_iff.mp (SortedMap.mem_keys_iff.mp hn)
  obtain ⟨i, raw, tag, rfl, hi, hr, hid, -⟩ := exists_start_of_mem_events hb ht
  have hs : StartsAt s lines b.id i := ⟨raw, hi, starts_iff.mpr ⟨tag, hr, hid⟩⟩
  obtain ⟨-, first, last, hm, hfi, hil⟩ :=
    exists_matches_of_contains hs hb (SortedMap.mem_keys_iff.mp hn)
  obtain ⟨hid', first', last', hm', hfi', hil'⟩ :=
    exists_matches_of_contains hs hc (SortedMap.mem_keys_iff.mp hn')
  -- both blocks end at the first end tag behind the line
  have hlast := hm.closed.last_unique (hid' ▸ hm'.closed) hfi hil hfi' hil'
  rw [hm.endLine_eq, hm'.endLine_eq, hlast] at hlt
  exact Nat.lt_irrefl _ hlt

end Block

namespace Scan

open Block (Event completed)

variable {d : Disk} {at_ : Setting} {before blocks : List Block} {x : Diagnostic}

theorem line_of_mem_blockProblems {again : Bool} {b : Block}
    (h : x ∈ blockProblems d at_ again b) : ∃ n ∈ b.targets.keys, x.line? = some n := by
  obtain ⟨hne, h | ⟨-, rfl⟩ | ⟨-, rfl⟩⟩ := mem_blockProblems.mp h
  · obtain ⟨e, he, text, -, -, rfl⟩ := mem_selfTargets.mp h
    exact ⟨e.1, List.mem_map_of_mem he, rfl⟩
  · exact ⟨b.firstLine, Block.firstLine_mem hne, rfl⟩
  · exact ⟨b.firstLine, Block.firstLine_mem hne, rfl⟩

theorem selfTargets_sublist (path : Path) (id : Text) (targets : List (Nat × Target)) :
    (selfTargets d path id targets).Sublist (targets.map fun e => .selfTargeting e.1 id) := by
  induction targets with
  | nil => exact .slnil
  | cons e targets ih =>
    rw [selfTargets_cons, List.map_cons]
    cases hk : e.2.kind with
    | remote url => simpa [selfTargets, hk] using ih.cons _
    | file text =>
      by_cases hs : targetsSelf d path text = true
      · simpa [selfTargets, hk, hs] using ih
      · simpa [selfTargets, hk, hs] using ih.cons _

theorem nodup_selfTargets (path : Path) (id : Text) (targets : SortedMap Nat Target) :
    (selfTargets d path id targets.entries).Nodup := by
  refine List.Nodup.sublist (selfTargets_sublist path id targets.entries)
    (List.Nodup.of_map (·.line?) ?_)
  have hlines : (targets.entries.map fun e => Diagnostic.selfTargeting e.1 id).map (·.line?) =
      targets.keys.map some := by
    rw [List.map_map, SortedMap.keys, List.map_map]
    rfl
  rw [hlines]
  exact targets.nodup_keys.map fun _ _ => Option.some.inj

theorem nodup_blockProblems (again : Bool) (b : Block) : (blockProblems d at_ again b).Nodup := by
  unfold blockProblems
  split
  next => exact List.nodup_nil
  next =>
    have hpair : [Diagnostic.duplicateMarker b.firstLine b.id,
        .emptyMarker b.firstLine b.id].Nodup := by
      refine List.Nodup.of_map (·.problem) ?_
      have hkinds : [Problem.duplicateMarker, .emptyMarker].Nodup := by decide
      exact hkinds
    have hsub := (Block.ite_sublist_singleton (Diagnostic.duplicateMarker b.firstLine b.id)
      (again = true)).append (Block.ite_sublist_singleton (Diagnostic.emptyMarker b.firstLine b.id)
        ((b.content.isEmpty && !at_.allowEmpty) = true))
    rw [List.nodup_append]
    refine ⟨nodup_selfTargets _ _ _, List.Nodup.sublist hsub hpair, fun x hx y hy he => ?_⟩
    have hself := problem_of_mem_selfTargets hx
    have hy' := hsub.subset hy
    rw [← he] at hy'
    simp only [List.cons_append, List.nil_append, List.mem_cons, List.not_mem_nil, or_false] at hy'
    rcases hy' with rfl | rfl
    · simp [Diagnostic.duplicateMarker, Diagnostic.onLine] at hself
    · simp [Diagnostic.emptyMarker, Diagnostic.onLine] at hself

theorem mem_noted (h : x ∈ noted d at_ before blocks) :
    ∃ b ∈ blocks, ∃ again, x ∈ blockProblems d at_ again b := by
  induction blocks generalizing before with
  | nil => simp [noted] at h
  | cons b rest ih =>
    rcases List.mem_append.mp h with h | h
    · exact ⟨b, List.mem_cons_self, _, h⟩
    · obtain ⟨c, hc, again, hx⟩ := ih h
      exact ⟨c, List.mem_cons_of_mem _ hc, again, hx⟩

theorem nodup_noted
    (h : blocks.Pairwise fun b c => ∀ n ∈ b.targets.keys, n ∉ c.targets.keys) :
    (noted d at_ before blocks).Nodup := by
  induction blocks generalizing before with
  | nil => exact List.nodup_nil
  | cons b rest ih =>
    obtain ⟨hb, hrest⟩ := List.pairwise_cons.mp h
    rw [noted, List.nodup_append]
    refine ⟨nodup_blockProblems _ b, ih hrest, fun x hx y hy he => ?_⟩
    -- what is wrong with a block stands in its declarations, and no later block has their lines
    obtain ⟨n, hn, hline⟩ := line_of_mem_blockProblems hx
    obtain ⟨c, hc, again, hy⟩ := mem_noted hy
    obtain ⟨n', hn', hline'⟩ := line_of_mem_blockProblems hy
    rw [he, hline'] at hline
    exact hb c hc n hn (Option.some.inj hline ▸ hn')

theorem filter_problemsOf_tags {events : List Event}
    (h : ∀ x, Event.problem x ∈ events → x.problem.isTagged = true) :
    (problemsOf d at_ before events).filter (!·.problem.isNoted) = Block.problems events := by
  induction events generalizing before with
  | nil => rfl
  | cons event events ih =>
    have hrest : ∀ x, Event.problem x ∈ events → x.problem.isTagged = true :=
      fun x hx => h x (List.mem_cons_of_mem _ hx)
    cases event with
    | problem x =>
      have hx := Problem.isNoted_of_isTagged (h x List.mem_cons_self)
      rw [problemsOf, List.filter_cons, hx, ih hrest]
      rfl
    | completed b =>
      have hb : (blockProblems d at_ (declares before b.id) b).filter (!·.problem.isNoted) = [] :=
        List.filter_eq_nil_iff.mpr fun x hx => by simp [isNoted_blockProblems hx]
      rw [problemsOf, List.filter_append, hb, List.nil_append, ih hrest]
      rfl

/-- Reading the lines of a file finds no problem twice. -/
theorem nodup_problemsOf (s : TagSyntax) (resolve : Text → Resolved) (lines : List Text) :
    (problemsOf d at_ [] (Block.events s resolve lines)).Nodup := by
  rw [← (List.filter_append_perm (·.problem.isNoted) _).nodup_iff, List.nodup_append]
  refine ⟨?_, ?_, fun x hx y hy he => ?_⟩
  · rw [filter_problemsOf (fun _ hx => hx) fun x => Block.isTagged_events]
    exact (nodup_noted (Block.pairwise_keys lines)).filter _
  · rw [filter_problemsOf_tags fun x => Block.isTagged_events]
    exact Block.nodup_problems_events lines
  · have hnoted := (List.mem_filter.mp hx).2
    have htag := (List.mem_filter.mp hy).2
    simp [← he, hnoted] at htag

theorem line_of_mem_problemsOf {s : TagSyntax} {resolve : Text → Resolved} {lines : List Text}
    (h : x ∈ problemsOf d at_ [] (Block.events s resolve lines)) :
    ∃ n, 0 < n ∧ x.line? = some n := by
  rcases mem_problemsOf.mp h with h | ⟨pre, b, post, he, h⟩
  · exact Block.line_of_mem_events h
  · obtain ⟨n, hn, hline⟩ := line_of_mem_blockProblems h
    have hb : b ∈ completed (Block.events s resolve lines) :=
      Block.mem_completed.mpr (he ▸ by simp)
    exact ⟨n, Block.pos_of_mem_keys hb hn, hline⟩

end Scan

namespace Cache

variable {d : Disk} {o : Options} {files : List Path} {k : Text} {info : FileInfo}

/-- Each entry has problems that are told by line and none of which is found twice, or a single
problem that says why the file was not read. -/
theorem problems_build (hk : (build d o files).find? k = some info) :
    (∃ reason, info.problems = [.couldNotParse reason]) ∨
      info.problems.Nodup ∧ ∀ x ∈ info.problems, ∃ n, 0 < n ∧ x.line? = some n := by
  cases traced_build d o files k info hk with
  | unresolved p cause _ hi =>
    rw [hi]
    exact .inl ⟨_, rfl⟩
  | scanned q _ hi =>
    rw [hi]
    rcases hl : d.lines q with cause | ⟨lines, cause | cause⟩
    · simp only [Scan.scan, hl]
      exact .inl ⟨_, rfl⟩
    · rw [Scan.scan_info_of_lines hl]
      exact .inr ⟨Scan.nodup_problemsOf _ _ _, fun x hx => Scan.line_of_mem_problemsOf hx⟩
    · simp only [Scan.scan, hl]
      exact .inl ⟨_, rfl⟩

end Cache

end BlockSync
