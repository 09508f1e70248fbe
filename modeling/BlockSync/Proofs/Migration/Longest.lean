import BlockSync.Proofs.Migration
import BlockSync.Proofs.Text

/-! Migrations told by what their mappings list. The sources that a text starts with are leading texts
of one another, so that one of them is the longest; and as no source has two destinations, neither the
order of the mappings nor their repetitions matter. -/

namespace BlockSync.Migrations

variable {mode mode' : MigrationMode} {m m' : Migrations} {known known' : SortedMap Text Text}
  {mappings mappings' : List Mapping} {e f : Mapping} {relative source destination : Text}

/-- No source is empty, and none has two destinations. -/
structure Consistent (mappings : List Mapping) : Prop where
  source_ne : ∀ e ∈ mappings, e.source ≠ []
  destination_eq : ∀ e ∈ mappings, ∀ f ∈ mappings,
    e.source = f.source → e.destination = f.destination

/-- The text starts with the source of the mapping, and any other source that it starts with takes
fewer bytes. -/
structure Decides (mappings : List Mapping) (relative : Text) (e : Mapping) : Prop where
  mem : e ∈ mappings
  leads : e.source <+: relative
  longest : ∀ f ∈ mappings, f.source <+: relative → f ≠ e →
    f.source.byteLength < e.source.byteLength

/-- Where a text goes by the mappings: nowhere if it starts with no source, or else to where the
longest one sends it, unless that is where it was. -/
structure Moves (mappings : List Mapping) (relative : Text) (moved : Option Text) : Prop where
  eq_none : (∀ e ∈ mappings, ¬e.source <+: relative) → moved = Option.none
  existsUnique : (∃ e ∈ mappings, e.source <+: relative) → ∃! e, Decides mappings relative e
  eq_of_decides : ∀ e rest, Decides mappings relative e → relative = e.source ++ rest →
    moved = if e.destination ++ rest = relative then Option.none else some (e.destination ++ rest)

/-- The pair is known, or one of the mappings lists it. -/
def Listed (known : SortedMap Text Text) (mappings : List Mapping) (source destination : Text) :
    Prop :=
  known.find? source = some destination ∨ ⟨source, destination⟩ ∈ mappings

theorem Decides.unique (he : Decides mappings relative e) (hf : Decides mappings relative f) :
    e = f := by
  by_contra hne
  have hlt := he.longest f hf.mem hf.leads (Ne.symm hne)
  have hgt := hf.longest e he.mem he.leads hne
  omega

/-- A mapping is added if it says where its source goes and nothing else was known of that. -/
theorem addMapping_eq_ok_iff : addMapping known e = .ok known' ↔
    e.source ≠ [] ∧ (∀ x, known.find? e.source = some x → x = e.destination) ∧
      known' = known.insert e.source e.destination := by
  unfold addMapping
  by_cases hs : e.source = []
  · simp [hs]
  rw [if_neg hs]
  cases hk : known.find? e.source with
  | none => simp [hs, eq_comm]
  | some first =>
    by_cases hd : first = e.destination
    · have hsame : known.insert e.source e.destination = known := by
        refine SortedMap.ext_find? fun k => ?_
        rw [SortedMap.find?_insert]
        split
        next he => rw [he, hk, hd]
        next => rfl
      simp [hs, hd, hsame, eq_comm]
    · simp [hd]

theorem listed_insert (h : ∀ x, known.find? e.source = some x → x = e.destination) :
    Listed (known.insert e.source e.destination) mappings source destination ↔
      Listed known (e :: mappings) source destination := by
  have hmapping : (⟨source, destination⟩ : Mapping) = e ↔
      source = e.source ∧ destination = e.destination := by
    cases e
    simp
  unfold Listed
  rw [SortedMap.find?_insert, List.mem_cons, hmapping]
  by_cases hs : source = e.source
  · subst hs
    have hknown := h destination
    simp only [if_true, Option.some.injEq, true_and, eq_comm (a := e.destination)]
    tauto
  · simp [hs]

theorem collect_cons_eq_ok_iff : collect known (e :: mappings) = .ok known' ↔
    e.source ≠ [] ∧ (∀ x, known.find? e.source = some x → x = e.destination) ∧
      collect (known.insert e.source e.destination) mappings = .ok known' := by
  rw [collect]
  split
  next added ha =>
    obtain ⟨hs, hagrees, rfl⟩ := addMapping_eq_ok_iff.mp ha
    simp only [ne_eq, hs, not_false_eq_true, true_and, and_iff_right hagrees]
  next fault ha =>
    simp only [reduceCtorEq, false_iff]
    rintro ⟨hs, hagrees, -⟩
    rw [addMapping_eq_ok_iff.mpr ⟨hs, hagrees, rfl⟩] at ha
    simp at ha

theorem exists_collect_iff : (∃ known', collect known mappings = .ok known') ↔
    (∀ e ∈ mappings, e.source ≠ []) ∧ ∀ source x y,
      Listed known mappings source x → Listed known mappings source y → x = y := by
  induction mappings generalizing known with
  | nil =>
    simp only [collect, Except.ok.injEq, exists_eq', true_iff, Listed, List.not_mem_nil, or_false]
    refine ⟨by simp, fun source x y hx hy => ?_⟩
    rw [hx] at hy
    exact Option.some.inj hy
  | cons e rest ih =>
    -- the mapping moves to what is known, so that what is listed stays the same
    simp only [collect_cons_eq_ok_iff, exists_and_left, ih, List.forall_mem_cons]
    constructor
    · rintro ⟨hs, hagrees, hrest, hone⟩
      simp only [listed_insert hagrees] at hone
      exact ⟨⟨hs, hrest⟩, hone⟩
    · rintro ⟨⟨hs, hrest⟩, hone⟩
      have hagrees : ∀ x, known.find? e.source = some x → x = e.destination :=
        fun x hx => hone e.source x e.destination (.inl hx) (.inr List.mem_cons_self)
      simp only [listed_insert hagrees]
      exact ⟨hs, hagrees, hrest, hone⟩

theorem find?_collect (h : collect known mappings = .ok known') :
    known'.find? source = some destination ↔ Listed known mappings source destination := by
  induction mappings generalizing known with
  | nil =>
    obtain rfl := Except.ok.inj h
    simp [Listed]
  | cons e rest ih =>
    obtain ⟨-, hagrees, hrest⟩ := collect_cons_eq_ok_iff.mp h
    rw [ih hrest, listed_insert hagrees]

theorem ofMappings_eq_ok_iff :
    ofMappings mode mappings = .ok m ↔ m.mode = mode ∧ collect ∅ mappings = .ok m.mappings := by
  unfold ofMappings
  cases collect ∅ mappings with
  | error fault => simp [Except.map]
  | ok known =>
    cases m
    simp [Except.map, eq_comm]

theorem exists_ofMappings_iff (mode : MigrationMode) (mappings : List Mapping) :
    (∃ m, ofMappings mode mappings = .ok m) ↔ Consistent mappings := by
  have hlisted : ∀ source x, Listed ∅ mappings source x ↔ ⟨source, x⟩ ∈ mappings := by
    simp [Listed]
  have hcollect : (∃ m, ofMappings mode mappings = .ok m) ↔
      ∃ known, collect ∅ mappings = .ok known := by
    simp only [ofMappings_eq_ok_iff]
    exact ⟨fun ⟨m, _, hm⟩ => ⟨_, hm⟩, fun ⟨known, hk⟩ => ⟨⟨mode, known⟩, rfl, hk⟩⟩
  rw [hcollect, exists_collect_iff]
  simp only [hlisted]
  constructor
  · rintro ⟨hs, hone⟩
    refine ⟨hs, ?_⟩
    rintro ⟨source, x⟩ he ⟨source', y⟩ hf rfl
    exact hone source x y he hf
  · rintro ⟨hs, hone⟩
    exact ⟨hs, fun source x y hx hy => hone _ hx _ hy rfl⟩

theorem find?_ofMappings (h : ofMappings mode mappings = .ok m) :
    m.mappings.find? source = some destination ↔ ⟨source, destination⟩ ∈ mappings := by
  rw [find?_collect (ofMappings_eq_ok_iff.mp h).2]
  simp [Listed]

theorem longest_eq_none_iff {entries : List (Text × Text)} :
    longest entries = Option.none ↔ entries = [] := by
  cases entries with
  | nil => simp [longest]
  | cons first rest =>
    simp only [longest, reduceCtorEq, iff_false]
    split
    next => simp
    next => split <;> simp

theorem length_le_of_longest {entries : List (Text × Text)} {x : Text × Text}
    (h : longest entries = some x) : ∀ y ∈ entries, y.1.length ≤ x.1.length := by
  induction entries generalizing x with
  | nil => simp
  | cons first rest ih =>
    rw [longest] at h
    split at h
    next hnone =>
      rw [longest_eq_none_iff.mp hnone, ← Option.some.inj h]
      simp
    next last hlast =>
      have hrest := ih hlast
      split at h
      next hlt =>
        obtain rfl := Option.some.inj h
        exact List.forall_mem_cons.mpr
          ⟨Nat.le_refl _, fun y hy => Nat.le_trans (hrest y hy) (Nat.le_of_lt hlt)⟩
      next hle =>
        obtain rfl := Option.some.inj h
        exact List.forall_mem_cons.mpr ⟨Nat.le_of_not_lt hle, hrest⟩

/-- Of two texts that start a third one the shorter starts the longer, which takes more bytes. -/
theorem byteLength_lt_of_starts {s t : Text} (hs : s <+: relative) (ht : t <+: relative)
    (hle : s.length ≤ t.length) (hne : s ≠ t) : s.byteLength < t.byteLength := by
  obtain ⟨more, rfl⟩ := List.prefix_of_prefix_length_le hs ht hle
  have hpos : 0 < Text.byteLength more := Text.byteLength_pos fun hnil => hne (by simp [hnil])
  rw [Text.byteLength_append]
  omega

/-- The pairs that apply to a text are the mappings whose source it starts with. -/
theorem mem_filter_iff (h : ofMappings mode mappings = .ok m) :
    (source, destination) ∈ m.mappings.entries.filter (·.1.isPrefixOf relative) ↔
      ⟨source, destination⟩ ∈ mappings ∧ source <+: relative := by
  rw [List.mem_filter, SortedMap.mem_entries_iff, find?_ofMappings h, List.isPrefixOf_iff_prefix]

theorem decides_of_longest (h : ofMappings mode mappings = .ok m)
    (hl : longest (m.mappings.entries.filter (·.1.isPrefixOf relative)) =
      some (source, destination)) : Decides mappings relative ⟨source, destination⟩ := by
  have hconsistent := (exists_ofMappings_iff mode mappings).mp ⟨m, h⟩
  obtain ⟨hmem, hleads⟩ := (mem_filter_iff h).mp (mem_of_longest hl)
  refine ⟨hmem, hleads, ?_⟩
  rintro ⟨source', destination'⟩ hf hstarts hne
  have hle : source'.length ≤ source.length :=
    length_le_of_longest hl _ ((mem_filter_iff h).mpr ⟨hf, hstarts⟩)
  refine byteLength_lt_of_starts hstarts hleads hle fun hsame => hne ?_
  have hdestination := hconsistent.destination_eq _ hf _ hmem hsame
  cases hsame
  cases hdestination
  rfl

theorem exists_longest (h : ofMappings mode mappings = .ok m)
    (hs : ∃ e ∈ mappings, e.source <+: relative) : ∃ source destination,
      longest (m.mappings.entries.filter (·.1.isPrefixOf relative)) = some (source, destination) := by
  obtain ⟨⟨source, destination⟩, he, hstarts⟩ := hs
  have hmem := (mem_filter_iff h).mpr ⟨he, hstarts⟩
  cases hl : longest (m.mappings.entries.filter (·.1.isPrefixOf relative)) with
  | none =>
    rw [longest_eq_none_iff.mp hl] at hmem
    simp at hmem
  | some x => exact ⟨x.1, x.2, rfl⟩

theorem resolve_of_decides (h : ofMappings mode mappings = .ok m) {rest : Text}
    (he : Decides mappings relative e) (hrest : relative = e.source ++ rest) :
    m.resolve relative =
      if e.destination ++ rest = relative then Option.none else some (e.destination ++ rest) := by
  obtain ⟨source, destination, hl⟩ := exists_longest h ⟨e, he.mem, he.leads⟩
  obtain rfl := (decides_of_longest h hl).unique he
  rw [resolve, hl]
  have hdrop : relative.drop source.length = rest := by
    rw [hrest]
    exact List.drop_left
  simp only [hdrop]

theorem resolve_eq_none (h : ofMappings mode mappings = .ok m)
    (hno : ∀ e ∈ mappings, ¬e.source <+: relative) : m.resolve relative = Option.none := by
  have hnil : m.mappings.entries.filter (·.1.isPrefixOf relative) = [] := by
    refine List.eq_nil_iff_forall_not_mem.mpr ?_
    rintro ⟨source, destination⟩ hm
    obtain ⟨he, hstarts⟩ := (mem_filter_iff h).mp hm
    exact hno _ he hstarts
  rw [resolve, longest_eq_none_iff.mpr hnil]

theorem moves_resolve (h : ofMappings mode mappings = .ok m) (relative : Text) :
    Moves mappings relative (m.resolve relative) := by
  constructor
  case eq_none =>
    exact resolve_eq_none h
  case existsUnique =>
    intro hs
    obtain ⟨source, destination, hl⟩ := exists_longest h hs
    have hdecides := decides_of_longest h hl
    exact ⟨_, hdecides, fun f hf => hf.unique hdecides⟩
  case eq_of_decides =>
    exact fun e rest => resolve_of_decides h

theorem mappings_eq (h : ofMappings mode mappings = .ok m)
    (h' : ofMappings mode' mappings' = .ok m') (hsame : ∀ e, e ∈ mappings ↔ e ∈ mappings') :
    m.mappings = m'.mappings := by
  refine SortedMap.ext_find? fun source => Option.ext fun destination => ?_
  rw [find?_ofMappings h, find?_ofMappings h', hsame]

/-- Mappings are taken exactly if they are consistent, and then a text goes where the one with the
longest source sends it, whatever the order of the mappings and however often each is repeated. -/
theorem determined_ofMappings :
    (∀ mode mappings, (∃ m, ofMappings mode mappings = .ok m) ↔ Consistent mappings) ∧
      ∀ mode mode' mappings mappings' m m', ofMappings mode mappings = .ok m →
        ofMappings mode' mappings' = .ok m' → (∀ e, e ∈ mappings ↔ e ∈ mappings') →
          ∀ relative, m.resolve relative = m'.resolve relative ∧
            Moves mappings relative (m.resolve relative) := by
  refine ⟨exists_ofMappings_iff, ?_⟩
  intro mode mode' mappings mappings' m m' h h' hsame relative
  refine ⟨?_, moves_resolve h relative⟩
  rw [resolve, resolve, mappings_eq h h' hsame]

/-- Two nested sources, in both orders and with one of them repeated. -/
theorem determined_nested :
    let outer : Mapping := ⟨"é/", "x/"⟩
    let inner : Mapping := ⟨"é/ü", "y/"⟩
    ∃ m m', ofMappings .missing [outer, inner] = .ok m ∧
      ofMappings .all [inner, outer, inner] = .ok m' ∧
        m.resolve "é/ü.md" = some "y/.md" ∧ m'.resolve "é/ü.md" = some "y/.md" := by
  intro outer inner
  obtain ⟨hiff, hresolve⟩ := determined_ofMappings
  obtain ⟨m, hm⟩ := (hiff .missing [outer, inner]).mpr ⟨by decide, by decide⟩
  obtain ⟨m', hm'⟩ := (hiff .all [inner, outer, inner]).mpr ⟨by decide, by decide⟩
  have hsame : ∀ e, e ∈ [outer, inner] ↔ e ∈ [inner, outer, inner] := by
    intro e
    simp only [List.mem_cons, List.not_mem_nil, or_false]
    tauto
  obtain ⟨heq, hmoves⟩ := hresolve _ _ _ _ m m' hm hm' hsame "é/ü.md"
  have hdecides : Decides [outer, inner] "é/ü.md" inner :=
    ⟨by decide, by decide, by decide⟩
  have hgoes := hmoves.eq_of_decides inner ".md" hdecides (by decide)
  have hmoved : m.resolve "é/ü.md" = some "y/.md" := hgoes.trans (by decide)
  exact ⟨m, m', hm, hm', hmoved, heq ▸ hmoved⟩

end BlockSync.Migrations
