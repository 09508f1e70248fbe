import BlockSync.Proofs.Block.Retagged
import BlockSync.Proofs.Cache.Problems
import BlockSync.Proofs.Disk.Revised

/-! A cache that is built again once some files have new content. If each file still completes the
same blocks but for the way they declare their targets, then the new cache has the keys and the
names of the old one, and its markers have the same checksums and the same targets. -/

namespace BlockSync

/-- The same targets, in whatever order and however often they are declared. -/
def SameKinds (targets targets' : List Target) : Prop :=
  ∀ kind, kind ∈ targets'.map Target.kind ↔ kind ∈ targets.map Target.kind

theorem SameKinds.exists_iff {targets targets' : List Target} (h : SameKinds targets targets')
    {p : TargetKind → Prop} : (∃ t ∈ targets', p t.kind) ↔ ∃ t ∈ targets, p t.kind := by
  have hmap : ∀ l : List Target, (∃ t ∈ l, p t.kind) ↔ ∃ kind ∈ l.map Target.kind, p kind := by
    intro l
    simp
  rw [hmap, hmap]
  exact exists_congr fun kind => and_congr_left fun _ => h kind

/-- The same block but for the way it declares its targets. -/
structure Block.Echoes (b b' : Block) : Prop where
  id_eq : b'.id = b.id
  content_eq : b'.content = b.content
  kinds : SameKinds b.targets.values b'.targets.values

theorem Block.Echoes.isEmpty_eq {b b' : Block} (h : b.Echoes b') :
    b'.targets.isEmpty = b.targets.isEmpty := by
  have hiff := h.kinds.exists_iff (p := fun _ => True)
  have hempty : ∀ m : SortedMap Nat Target, m.isEmpty = true ↔ ¬∃ t ∈ m.values, True := by
    intro m
    rw [SortedMap.isEmpty_iff, SortedMap.values, ← List.map_eq_nil_iff (f := Prod.snd),
      List.eq_nil_iff_forall_not_mem]
    simp
  rw [Bool.eq_iff_iff, hempty, hempty, hiff]

theorem Block.Echoes.restates {b b' : Block} (h : b.Echoes b') : b.Restates b' :=
  ⟨h.id_eq, h.content_eq, h.isEmpty_eq⟩

theorem Block.Echoes.refl (b : Block) : b.Echoes b :=
  ⟨rfl, rfl, fun _ => Iff.rfl⟩

theorem Block.RevisesBlock.echoes {s : TagSyntax} {amend : Tag.Start → Option Text} {b b' : Block}
    (h : Block.RevisesBlock s amend b b') : b.Echoes b' := by
  obtain ⟨hid, hrev⟩ := h
  refine ⟨hid, hrev.content_eq, fun kind => ?_⟩
  have hany : ((firsts b.targets.values).map (amendTarget s amend)).any (·.kind == kind) =
      (firsts b.targets.values).any (·.kind == kind) := any_amendTarget _ kind
  rw [any_firsts, ← hrev.values_eq, Bool.eq_iff_iff, List.any_eq_true, List.any_eq_true] at hany
  simpa using hany

theorem rel_head? {α β : Type} {R : α → β → Prop} {l : List α} {l' : List β}
    (h : List.Forall₂ R l l') : Option.Rel R l.head? l'.head? := by
  cases h with
  | nil => exact .none
  | cons hr _ => exact .some hr

theorem rel_getLast? {α β : Type} {R : α → β → Prop} {l : List α} {l' : List β}
    (h : List.Forall₂ R l l') : Option.Rel R l.getLast? l'.getLast? := by
  rw [← List.head?_reverse, ← List.head?_reverse]
  exact rel_head? (List.forall₂_reverse_iff.mpr h)

theorem rel_or {α β : Type} {R : α → β → Prop} {x y : Option α} {x' y' : Option β}
    (h : Option.Rel R x x') (h' : Option.Rel R y y') : Option.Rel R (x.or y) (x'.or y') := by
  cases h with
  | some hr => exact .some hr
  | none => exact h'

theorem exists_of_forall₂_append {α β : Type} {R : α → β → Prop} {l : List α} {pre' post' : List β}
    {b' : β} (h : List.Forall₂ R l (pre' ++ b' :: post')) :
    ∃ pre b post, l = pre ++ b :: post ∧ List.Forall₂ R pre pre' ∧ R b b' := by
  induction pre' generalizing l with
  | nil =>
    cases h with
    | cons hr _ => exact ⟨[], _, _, rfl, .nil, hr⟩
  | cons c' pre' ih =>
    cases h with
    | cons hc h =>
      obtain ⟨pre, b, post, rfl, hpre, hr⟩ := ih h
      exact ⟨_ :: pre, b, post, rfl, .cons hc hpre, hr⟩

theorem Block.exists_of_completed {events : List Block.Event} {pre post : List Block} {b : Block}
    (h : completed events = pre ++ b :: post) :
    ∃ front back, events = front ++ .completed b :: back ∧ completed front = pre := by
  obtain ⟨front, more, rfl, hfront, hmore⟩ := List.filterMap_eq_append_iff.mp h
  obtain ⟨skipped, e, back, rfl, hskipped, he, -⟩ := List.filterMap_eq_cons_iff.mp hmore
  cases e with
  | problem x => simp at he
  | completed c =>
    obtain rfl := Option.some.inj he
    refine ⟨front ++ skipped, back, by simp, ?_⟩
    rw [completed_append, completed, completed, hfront, List.filterMap_eq_nil_iff.mpr hskipped,
      List.append_nil]

namespace Scan

theorem rel_kept? {R : Block → Block → Prop} (hR : ∀ {b b'}, R b b' → b.Restates b')
    {blocks blocks' : List Block} (h : List.Forall₂ R blocks blocks') (id : Text) :
    Option.Rel R (kept? blocks id) (kept? blocks' id) := by
  have hlast := rel_getLast? (List.rel_filter (R := R)
    (p := fun b => b.id == id && !b.targets.isEmpty)
    (q := fun b => b.id == id && !b.targets.isEmpty)
    (fun b b' hb => by simp [(hR hb).id_eq, (hR hb).isEmpty_eq]) h)
  have hfirst := rel_head? (List.rel_filter (R := R) (p := fun b => b.id == id)
    (q := fun b => b.id == id) (fun b b' hb => by simp [(hR hb).id_eq]) h)
  rw [List.head?_filter, List.head?_filter] at hfirst
  exact rel_or hlast hfirst

theorem declares_echo {blocks blocks' : List Block}
    (h : List.Forall₂ Block.Echoes blocks blocks') (id : Text) :
    declares blocks' id = declares blocks id := by
  induction h with
  | nil => rfl
  | cons hb _ ih =>
    rw [declares, declares] at ih ⊢
    rw [List.any_cons, List.any_cons, ih, hb.id_eq, hb.isEmpty_eq]

variable {d : Disk} {o : Options} {content : Place → Option Text.Utf8.Bytes}

theorem settingOf_revised (path : Path) :
    settingOf (d.revised content) o path = settingOf d o path := by
  rw [settingOf, settingOf, findRoot_revised]

theorem eventsOf_revised (path : Path) (lines : List Line) :
    eventsOf (d.revised content) o path lines = eventsOf d o path lines := by
  rw [eventsOf, eventsOf, findRoot_revised, resolveTarget_revised]

theorem blocksOf_revised {path : Path} (h : (d.revised content).lines path = d.lines path) :
    blocksOf (d.revised content) o path = blocksOf d o path := by
  simp only [blocksOf, h, eventsOf_revised]

theorem blockProblems_echo {at_ : Setting} {again : Bool} {b b' : Block} (h : b.Echoes b')
    (hb : blockProblems d at_ again b = []) :
    blockProblems (d.revised content) at_ again b' = [] := by
  have hno : ∀ x, x ∉ blockProblems d at_ again b := by simp [hb]
  refine List.eq_nil_iff_forall_not_mem.mpr fun x hx => ?_
  obtain ⟨hne, hx⟩ := mem_blockProblems.mp hx
  rw [h.isEmpty_eq] at hne
  rcases hx with hx | ⟨ha, -⟩ | ⟨hc, -⟩
  · obtain ⟨e', he', text, hk, hs, -⟩ := mem_selfTargets.mp hx
    rw [targetsSelf_revised] at hs
    obtain ⟨t, ht, text, hk, hs⟩ := (h.kinds.exists_iff
      (p := fun kind => ∃ text, kind = .file text ∧ targetsSelf d at_.path text = true)).mp
      ⟨e'.2, List.mem_map_of_mem he', text, hk, hs⟩
    obtain ⟨e, he, rfl⟩ := List.mem_map.mp ht
    exact hno _ (mem_blockProblems.mpr
      ⟨hne, .inl (mem_selfTargets.mpr ⟨e, he, text, hk, hs, rfl⟩)⟩)
  · exact hno _ (mem_blockProblems.mpr ⟨hne, .inr (.inl ⟨ha, rfl⟩)⟩)
  · rw [h.content_eq] at hc
    exact hno _ (mem_blockProblems.mpr ⟨hne, .inr (.inr ⟨hc, rfl⟩)⟩)

theorem problemsOf_echo {at_ : Setting} {events events' : List Block.Event}
    (h : List.Forall₂ Block.Echoes (Block.completed events) (Block.completed events'))
    (hclean : ∀ x, Block.Event.problem x ∉ events')
    (hno : ∀ again, ∀ b ∈ Block.completed events, ∀ x ∈ blockProblems d at_ again b,
      x ∉ problemsOf d at_ [] events) :
    problemsOf (d.revised content) at_ [] events' = [] := by
  refine List.eq_nil_iff_forall_not_mem.mpr fun x hmem => ?_
  rcases mem_problemsOf.mp hmem with hx | ⟨pre', b', post', rfl, hx⟩
  · exact hclean x hx
  · rw [Block.completed_append] at h
    obtain ⟨pre, b, post, hsplit, hpre, hb⟩ := exists_of_forall₂_append h
    obtain ⟨front, back, rfl, rfl⟩ := Block.exists_of_completed hsplit
    have hnil : blockProblems d at_ (declares (Block.completed front) b.id) b = [] := by
      refine List.eq_nil_iff_forall_not_mem.mpr fun y hy => ?_
      exact hno _ b (by simp) y hy (mem_problemsOf.mpr (.inr ⟨front, b, back, rfl, hy⟩))
    rw [List.nil_append, hb.id_eq, declares_echo hpre, blockProblems_echo hb hnil] at hx
    simp at hx

theorem refers_revised {path file : Path} {target : Target} :
    Refers (d.revised content) path target file ↔ Refers d path target file := by
  simp only [Refers, targetsSelf_revised, Disk.isFile_revised]

end Scan

/-- The same checksums and the same targets. -/
structure Marker.Echoes (m m' : Marker) : Prop where
  content_eq : m'.contentChecksum = m.contentChecksum
  self_eq : m'.selfChecksum = m.selfChecksum
  kinds : SameKinds m.targets.values m'.targets.values

theorem Block.Echoes.markerOf {b b' : Block} (h : b.Echoes b') (relative : Text) :
    (Scan.markerOf relative b).Echoes (Scan.markerOf relative b') :=
  ⟨by simp [Scan.markerOf, h.content_eq], by simp [Scan.markerOf, h.content_eq], h.kinds⟩

structure FileInfo.Echoes (info info' : FileInfo) : Prop where
  mem_aliases : ∀ name, name ∈ info'.aliases ↔ name ∈ info.aliases
  markers : ∀ id, Option.Rel Marker.Echoes (info.markers.find? id) (info'.markers.find? id)

namespace Cache

/-- The same keys, with entries that a check cannot tell apart. -/
def Echoes (c c' : Cache) : Prop :=
  ∀ k, Option.Rel FileInfo.Echoes (c.find? k) (c'.find? k)

variable {d : Disk} {o : Options} {content : Place → Option Text.Utf8.Bytes}

theorem keyOf_revised (p : Path) : keyOf (d.revised content) p = keyOf d p := by
  rw [keyOf, keyOf, Disk.canonical_revised]

/-- Each file still completes the same blocks. -/
def SameBlocks (d : Disk) (o : Options) (content : Place → Option Text.Utf8.Bytes) : Prop :=
  ∀ p q, d.canonical p = .ok q →
    List.Forall₂ Block.Echoes (Scan.blocksOf d o q) (Scan.blocksOf (d.revised content) o q)

theorem exists_mem_iff_of_forall₂ {α β : Type} {R : α → β → Prop} {l : List α} {l' : List β}
    (h : List.Forall₂ R l l') {P : α → Prop} {Q : β → Prop} (hr : ∀ a b, R a b → (Q b ↔ P a)) :
    (∃ b ∈ l', Q b) ↔ ∃ a ∈ l, P a := by
  induction h with
  | nil => simp
  | cons hab _ ih => simp [hr _ _ hab, ih]

theorem SameBlocks.referenced_iff (h : SameBlocks d o content) {files : List Path} {r : Path} :
    Referenced (d.revised content) o files r ↔ Referenced d o files r := by
  refine exists_congr fun p => and_congr_right fun _ => exists_congr fun q => ?_
  rw [Disk.canonical_revised]
  refine and_congr_right fun hp => exists_mem_iff_of_forall₂ (h p q hp) fun b b' he => ?_
  simp only [Scan.refers_revised]
  exact he.kinds.exists_iff (p := fun kind => ∃ text, kind = .file text ∧
    Scan.targetsSelf d q text = false ∧ d.isFile (.ofText text) = true ∧ r = .ofText text)

theorem SameBlocks.contains_build (hd : d.WellFormed) (h : SameBlocks d o content)
    (files : List Path) (k : Text) : (build (d.revised content) o files).contains k =
      (build d o files).contains k := by
  rw [Bool.eq_iff_iff, Cache.contains_build (hd.revised content), Cache.contains_build hd]
  simp only [h.referenced_iff, keyOf_revised]

/-- Unless blocks changed, the cache echoes the old one. -/
theorem SameBlocks.echoes_build (hd : d.WellFormed) (h : SameBlocks d o content)
    (files : List Path) : Echoes (build d o files) (build (d.revised content) o files) := by
  intro k
  have hg := grouped_build (o := o) hd files
  have hg' := grouped_build (o := o) (hd.revised content) files
  have hcontains := h.contains_build hd files
  have hk := hcontains k
  rw [SortedMap.contains, SortedMap.contains] at hk
  cases hi : (build d o files).find? k with
  | none =>
    cases hi' : (build (d.revised content) o files).find? k with
    | none => exact .none
    | some info' => simp [hi, hi'] at hk
  | some info =>
    cases hi' : (build (d.revised content) o files).find? k with
    | none => simp [hi, hi'] at hk
    | some info' =>
      cases hc : d.canonical (.ofText k) with
      | error cause =>
        have hc' : (d.revised content).canonical (.ofText k) = .error cause := by
          rw [Disk.canonical_revised, hc]
        obtain ⟨readOnly, rfl⟩ := hg.unresolved hi hc
        obtain ⟨readOnly', rfl⟩ := hg'.unresolved hi' hc'
        exact .some ⟨fun _ => Iff.rfl, fun _ => .none⟩
      | ok q =>
        have hc' : (d.revised content).canonical (.ofText k) = .ok q := by
          rw [Disk.canonical_revised, hc]
        refine .some ⟨fun name => ?_, fun id => ?_⟩
        · rw [hg.mem_names hd hi hc, hg'.mem_names (hd.revised content) hi' hc', hcontains,
            Disk.canonical_revised]
        · rw [hg.markers_eq hd hi hc, hg'.markers_eq (hd.revised content) hi' hc',
            Scan.find?_scan_markers, Scan.find?_scan_markers, Scan.settingOf_revised]
          have hrel := Scan.rel_kept? (fun hb => hb.restates) (h _ q hc) id
          generalize Scan.kept? (Scan.blocksOf d o q) id = b at hrel
          generalize Scan.kept? (Scan.blocksOf (d.revised content) o q) id = b' at hrel
          cases hrel with
          | some hr => exact .some (hr.markerOf _)
          | none => exact .none

end Cache

end BlockSync
