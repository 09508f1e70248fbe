import BlockSync.Proofs.Path.Join

/-! The normal form of paths. Cleaning puts every text into it and leaves alone what is in it, so
that a path is told by its kind and its components, and two texts name one path exactly if these
agree. -/

namespace BlockSync.Path

variable {s t : Text} {kind : Kind} {names : List Text}

/-- How many slashes the text starts with. -/
def leading (t : Text) : Nat :=
  (t.takeWhile (· == '/')).length

/-- Both texts are empty, relative, absolute, or start with the two slashes of a network path. -/
structure SameKind (s t : Text) : Prop where
  nil_iff : s = [] ↔ t = []
  relative_iff : leading s = 0 ↔ leading t = 0
  network_iff : leading s = 2 ↔ leading t = 2

/-- The parts of a text, one after the other, leave these names: an empty part and a dot are no
name, and two dots take the last name away if there is one. -/
inductive Leaves : List Text → List Text → Prop
  | nil : Leaves [] []
  | skip {parts names part} (h : Leaves parts names) (hp : part = [] ∨ part = ".") :
      Leaves (parts ++ [part]) names
  | up {parts names name} (h : Leaves parts (names ++ [name])) :
      Leaves (parts ++ [(".." : Text)]) names
  | top {parts} (h : Leaves parts []) : Leaves (parts ++ [(".." : Text)]) []
  | down {parts names part} (h : Leaves parts names) (hp : Plain part) :
      Leaves (parts ++ [part]) (names ++ [part])

/-- The names that are left of what stands between the slashes of a text. -/
def Stacks (t : Text) (names : List Text) : Prop :=
  ∃ parts, parts ≠ [] ∧ (∀ part ∈ parts, '/' ∉ part) ∧ t = Text.joinWith "/" parts ∧
    Leaves parts names

/-- Plain names behind no slash, one or two, and no backslash in them. Only the dot is no name. -/
structure Normal (t : Text) : Prop where
  not_mem : '\\' ∉ t
  eq_joinWith : t = "." ∨ ∃ lead ∈ ([[], "/", "//"] : List Text), ∃ names,
    t = lead ++ Text.joinWith "/" names ∧ ∀ name ∈ names, Plain name

theorem leading_slash (t : Text) : leading ('/' :: t) = leading t + 1 := by
  simp [leading]

theorem leading_eq_zero_iff : leading t = 0 ↔ t.head? ≠ some '/' := by
  cases t with
  | nil => simp [leading]
  | cons c t =>
    by_cases hc : c = '/'
    · simp [hc, leading_slash]
    · simp [leading, hc]

theorem leading_eq_zero (h : ∀ rest, t ≠ '/' :: rest) : leading t = 0 := by
  refine leading_eq_zero_iff.mpr fun hh => ?_
  obtain ⟨rest, ht⟩ := List.head?_eq_some_iff.mp hh
  exact h rest ht

theorem kindOf_eq (t : Text) : kindOf t =
    if t = [] then .empty
    else if leading t = 0 then .relative
    else if leading t = 2 then .network
    else .absolute := by
  unfold kindOf
  split
  next => rfl
  next rest => simp [leading_slash]
  next rest hthird =>
    have hrest : leading rest = 0 := leading_eq_zero hthird
    simp [leading_slash, hrest]
  next rest _ hsecond =>
    have hrest : leading rest = 0 := leading_eq_zero hsecond
    simp [leading_slash, hrest]
  next hne _ _ hfirst => rw [if_neg hne, if_pos (leading_eq_zero hfirst)]

theorem sameKind_iff : SameKind s t ↔ kindOf s = kindOf t := by
  have hempty : leading ([] : Text) = 0 := rfl
  rw [kindOf_eq s, kindOf_eq t]
  constructor
  · rintro ⟨hnil, hrelative, hnetwork⟩
    simp only [hnil, hrelative, hnetwork]
  · intro h
    constructor
    · grind
    · grind
    · grind

theorem normal_render (h : ∀ name ∈ names, Plain name) (hb : '\\' ∉ render kind names) :
    Normal (render kind names) := by
  refine ⟨hb, ?_⟩
  cases kind with
  | network => exact .inr ⟨"//", by simp, names, rfl, h⟩
  | absolute => exact .inr ⟨"/", by simp, names, rfl, h⟩
  | empty => exact .inr ⟨[], by simp, names, rfl, h⟩
  | relative =>
    by_cases hne : names = []
    · exact .inl (by rw [hne]; rfl)
    · exact .inr ⟨[], by simp, names, render_of_relative hne, h⟩

theorem Normal.exists_render (h : Normal t) : ∃ kind names, t = render kind names ∧
    (∀ name ∈ names, Plain name) ∧ (kind = .empty → names = []) := by
  rcases h.eq_joinWith with rfl | ⟨lead, hlead, names, rfl, hn⟩
  · exact ⟨.relative, [], rfl, by simp, nofun⟩
  · simp only [List.mem_cons, List.not_mem_nil, or_false] at hlead
    rcases hlead with rfl | rfl | rfl
    · by_cases hne : names = []
      · exact ⟨.empty, names, rfl, hn, fun _ => hne⟩
      · exact ⟨.relative, names, (render_of_relative hne).symm, hn, nofun⟩
    · exact ⟨.absolute, names, rfl, hn, nofun⟩
    · exact ⟨.network, names, rfl, hn, nofun⟩

theorem normal_text (p : Path) : Normal p.text := by
  have hb := p.not_mem_text
  rw [text_eq_render p] at hb ⊢
  exact normal_render (fun _ => plain_of_mem_components) hb

/-- The texts in normal form are those that cleaning leaves alone. -/
theorem normal_iff : Normal t ↔ (ofText t).text = t := by
  constructor
  · intro h
    have hslashes := slashes_eq_self h.not_mem
    obtain ⟨kind, names, rfl, hn, he⟩ := h.exists_render
    exact (congrArg clean hslashes).trans (clean_render hn he)
  · intro h
    rw [← h]
    exact normal_text _

theorem Leaves.snoc {parts : List Text} (h : Leaves parts names) {part : Text} (hp : '/' ∉ part) :
    Leaves (parts ++ [part]) (push names part) := by
  unfold Path.push
  split
  next hskip => exact h.skip hskip
  next hskip =>
    split
    next hup =>
      subst hup
      rcases List.eq_nil_or_concat names with rfl | ⟨init, name, rfl⟩
      · exact h.top
      · rw [List.concat_eq_append] at h ⊢
        rw [List.dropLast_concat]
        exact h.up
    next hup => exact h.down ⟨fun he => hskip (.inl he), fun he => hskip (.inr he), hup, hp⟩

theorem leaves_foldl {parts : List Text} (h : ∀ part ∈ parts, '/' ∉ part) :
    Leaves parts (parts.foldl push []) := by
  induction parts using List.reverseRecOn with
  | nil => exact .nil
  | append_singleton parts part ih =>
    rw [List.foldl_append]
    exact (ih fun other hm => h other (by simp [hm])).snoc (h part (by simp))

theorem Leaves.eq_foldl {parts : List Text} (h : Leaves parts names) :
    names = parts.foldl push [] := by
  induction h with
  | nil => rfl
  | skip _ hp ih =>
    rw [List.foldl_append, ← ih]
    exact (if_pos hp).symm
  | up _ ih =>
    rw [List.foldl_append, ← ih]
    exact List.dropLast_concat.symm
  | top _ ih =>
    rw [List.foldl_append, ← ih]
    rfl
  | down _ hp ih =>
    rw [List.foldl_append, ← ih]
    exact (push_plain hp _).symm

/-- Each text leaves one stack of names, and the components are these names. -/
theorem stacks_iff : Stacks t names ↔ names = componentsOf t := by
  constructor
  · rintro ⟨parts, hne, hparts, rfl, h⟩
    have hsplit : (Text.joinWith "/" parts).splitOn '/' = parts :=
      List.splitOn_intercalate '/' hparts hne
    rw [componentsOf, hsplit]
    exact h.eq_foldl
  · rintro rfl
    have hparts : ∀ part ∈ t.splitOn '/', '/' ∉ part := fun _ => Text.not_mem_of_mem_splitOn
    exact ⟨t.splitOn '/', List.splitOn_ne_nil '/' t, hparts, (List.intercalate_splitOn '/').symm,
      leaves_foldl hparts⟩

theorem Stacks.unique {names' : List Text} (h : Stacks t names) (h' : Stacks t names') :
    names = names' :=
  (stacks_iff.mp h).trans (stacks_iff.mp h').symm

theorem kind_ofText (s : Text) : (ofText s).kind = kindOf (slashes s) :=
  kindOf_clean _

theorem components_ofText (s : Text) : (ofText s).components = componentsOf (slashes s) :=
  componentsOf_clean _

theorem ofText_eq_iff : ofText s = ofText t ↔ SameKind (slashes s) (slashes t) ∧
    ∃ names, Stacks (slashes s) names ∧ Stacks (slashes t) names := by
  simp only [stacks_iff, exists_eq_left]
  rw [sameKind_iff, ← kind_ofText, ← kind_ofText, ← components_ofText, ← components_ofText]
  constructor
  · intro h
    rw [h]
    exact ⟨rfl, rfl⟩
  · rintro ⟨hkind, hcomponents⟩
    exact eq_of_kind_components hkind hcomponents

/-- Cleaning ends in normal form at once, and gives two texts one path exactly if they are of one
kind and leave the same names, of which each text leaves one stack. -/
theorem normalizes_ofText (s t : Text) :
    Normal (ofText s).text ∧ ofText (ofText s).text = ofText s ∧
      (∃! names, Stacks (slashes s) names) ∧
        (ofText s = ofText t ↔ SameKind (slashes s) (slashes t) ∧
          ∃ names, Stacks (slashes s) names ∧ Stacks (slashes t) names) :=
  ⟨normal_text _, ofText_text _, ⟨_, stacks_iff.mpr rfl, fun _ h => h.unique (stacks_iff.mpr rfl)⟩,
    ofText_eq_iff⟩

/-- Two dots take away the name before them and no other. -/
theorem normalizes_ofText_up :
    let s : Text := "/a/b\\..//c/."
    Stacks (slashes s) ["a", "c"] ∧ ofText s = ofText "/a/c" ∧
      ofText s ≠ ofText "/a/b/c" ∧ ofText s ≠ ofText "/c" := by
  intro s
  have ha : Plain "a" := by decide
  have hb : Plain "b" := by decide
  have hc : Plain "c" := by decide
  have hempty : ∀ {parts names}, Leaves parts names → Leaves (parts ++ [([] : Text)]) names :=
    fun h => h.skip (.inl rfl)
  have hdot : ∀ {parts names}, Leaves parts names → Leaves (parts ++ [("." : Text)]) names :=
    fun h => h.skip (.inr rfl)
  have hroot : Leaves [[]] [] := hempty .nil
  have hup : Leaves [[], "a", "b", "..", [], "c", "."] ["a", "c"] :=
    hdot ((hempty ((hroot.down ha).down hb).up).down hc)
  have hs : Stacks (slashes s) ["a", "c"] :=
    ⟨[[], "a", "b", "..", [], "c", "."], by simp, by decide, by decide, hup⟩
  have hother : ∀ t names, Stacks (slashes t) names → names ≠ ["a", "c"] → ofText s ≠ ofText t := by
    intro t names ht hne he
    obtain ⟨-, names', hs', ht'⟩ := (normalizes_ofText s t).2.2.2.mp he
    exact hne ((ht.unique ht').trans (hs'.unique hs))
  refine ⟨hs, ?_, ?_, ?_⟩
  · refine (normalizes_ofText s "/a/c").2.2.2.mpr ⟨sameKind_iff.mpr (by decide), _, hs, ?_⟩
    exact ⟨[[], "a", "c"], by simp, by decide, rfl, (hroot.down ha).down hc⟩
  · refine hother _ ["a", "b", "c"] ?_ (by decide)
    exact ⟨[[], "a", "b", "c"], by simp, by decide, rfl, ((hroot.down ha).down hb).down hc⟩
  · refine hother _ ["c"] ?_ (by decide)
    exact ⟨[[], "c"], by simp, by decide, rfl, hroot.down hc⟩

end BlockSync.Path
