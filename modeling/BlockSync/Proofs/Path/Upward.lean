import BlockSync.Proofs.Path.Ancestors
import BlockSync.Proofs.Path.Relative

/-! What stands above a path and what stands in a directory, by components. A directory lies above an
absolute path if the path goes on from its components, and the way up from the path meets each of
these directories, those with more components first. -/

namespace BlockSync.Path

variable {p q dir other : Path} {name : Text} {walk before after : List Path}

/-- The path goes on from the directory, or is it. -/
structure Leads (dir p : Path) : Prop where
  kind_eq : dir.kind = p.kind
  isPrefix : dir.components <+: p.components

/-- The directory lies above the path. -/
def Above (dir p : Path) : Prop :=
  Leads dir p ∧ dir ≠ p

/-- The directory has the property, and none that has it too has more components. -/
structure Longest (P : Path → Prop) (dir : Path) : Prop where
  holds : P dir
  length_le : ∀ other, P other → other.components.length ≤ dir.components.length

/-- The text of the path that has one more component. -/
def entryText (dir : Path) (name : Text) : Text :=
  render dir.kind (dir.components ++ [name])

/-- Joining the name leads to the entry of that name in the directory, and to nothing else. -/
structure NamesChild (dir : Path) (name : Text) : Prop where
  text_eq : (dir.join name).text = dir.entryText name
  parent?_eq : (dir.join name).parent? = some dir
  fileName?_eq : (dir.join name).fileName? = some name

section Child

variable (hd : dir.text ≠ []) (hn : Plain name) (hb : '\\' ∉ name)

include hd hn hb

theorem composes_plain : Composes dir name := by
  have hjoin : Text.joinWith "/" [name] = name := by simp [Text.joinWith]
  have hcomposes : Composes dir (Text.joinWith "/" [name]) :=
    composes_joinWith hd (by simpa using hn) (by simpa using hb)
  rwa [hjoin] at hcomposes

theorem components_join_plain : (dir.join name).components = dir.components ++ [name] := by
  rw [(composes_plain hd hn hb).components_eq, follow_of_plain hn hb]

theorem text_join_plain : (dir.join name).text = dir.entryText name := by
  rw [text_eq_render, (composes_plain hd hn hb).kind_eq, components_join_plain hd hn hb, entryText]

theorem parent?_join_plain (hk : dir.components = [] → dir.kind = .absolute) :
    (dir.join name).parent? = some dir := by
  have hkind := (composes_plain hd hn hb).kind_eq
  rw [parent?_of_concat (components_join_plain hd hn hb) fun hnone => hkind.trans (hk hnone), hkind,
    ← text_eq_render, ofText_text]

theorem fileName?_join_plain : (dir.join name).fileName? = some name :=
  fileName?_of_concat (components_join_plain hd hn hb)

end Child

theorem Rooted.text_ne (h : dir.Rooted) : dir.text ≠ [] := by
  intro hnil
  simp [Rooted, hnil] at h

theorem Rooted.kind_eq (h : dir.Rooted) : dir.kind = .absolute ∨ dir.kind = .network :=
  kindOf_of_head h

/-- Above a network host there is no directory for the path itself to be in. -/
theorem parent?_join_network (hd : dir.text = "//") (hn : Plain name) (hb : '\\' ∉ name) :
    (dir.join name).parent? = some (ofText "/") := by
  have hne : dir.text ≠ [] := by simp [hd]
  have hkind : (dir.join name).kind = .network := by
    rw [(composes_plain hne hn hb).kind_eq, kind, hd]
    rfl
  have hnone : dir.components = [] := by
    rw [components, hd]
    rfl
  exact parent?_of_short hkind (by simp [components_join_plain hne hn hb, hnone])

/-- The name is that of an entry exactly if it is plain and has no backslash; only above a network
host there is no directory that holds it. -/
theorem namesChild_iff (hd : dir.Rooted) :
    NamesChild dir name ↔ (Plain name ∧ '\\' ∉ name) ∧ dir.text ≠ "//" := by
  constructor
  · intro h
    obtain ⟨hn, htext⟩ := text_of_fileName? h.fileName?_eq
    have hb : '\\' ∉ name := by
      intro hm
      have hno := (dir.join name).not_mem_text
      rw [htext] at hno
      exact hno (List.mem_append_right _ hm)
    refine ⟨⟨hn, hb⟩, fun hnetwork => ?_⟩
    have htop : dir = ofText "/" :=
      Option.some.inj (h.parent?_eq.symm.trans (parent?_join_network hnetwork hn hb))
    rw [htop] at hnetwork
    exact absurd hnetwork (by decide)
  · rintro ⟨⟨hn, hb⟩, hlocal⟩
    refine ⟨text_join_plain hd.text_ne hn hb, parent?_join_plain hd.text_ne hn hb fun hnone => ?_,
      fileName?_join_plain hd.text_ne hn hb⟩
    refine hd.kind_eq.resolve_right fun hnetwork => hlocal ?_
    rw [text_eq_render, hnetwork, hnone]
    rfl

theorem Leads.refl (p : Path) : Leads p p :=
  ⟨rfl, List.prefix_rfl⟩

theorem Leads.trans (h : Leads other dir) (h' : Leads dir p) : Leads other p :=
  ⟨h.kind_eq.trans h'.kind_eq, h.isPrefix.trans h'.isPrefix⟩

theorem Leads.length_le (h : Leads dir p) : dir.components.length ≤ p.components.length :=
  h.isPrefix.length_le

theorem rooted_of_kind (h : p.kind = .absolute) : p.Rooted := by
  rw [Rooted, text_of_absolute h]
  rfl

/-- What leads to a path is the path itself or leads to the directory that holds it. -/
theorem leads_iff_of_heldBy (hp : p.kind = .absolute) (h : HeldBy p q) :
    Leads dir p ↔ dir = p ∨ Leads dir q := by
  obtain ⟨init, name, hc, -, rfl⟩ := h.exists_concat fun hk => by simp [hp] at hk
  have hkind := kind_ofText_init hc
  have hinit := components_ofText_init hc
  constructor
  · rintro ⟨hk, hstarts⟩
    rw [hc, List.prefix_concat_iff] at hstarts
    rcases hstarts with he | hstarts
    · exact .inl (eq_of_kind_components hk (he.trans hc.symm))
    · exact .inr ⟨hk.trans hkind.symm, hinit.symm ▸ hstarts⟩
  · rintro (rfl | ⟨hk, hstarts⟩)
    · exact .refl _
    · rw [hinit] at hstarts
      exact ⟨hk.trans hkind, hc ▸ hstarts.trans (List.prefix_append _ _)⟩

theorem above_iff_of_heldBy (hp : p.kind = .absolute) (h : HeldBy p q) :
    Above dir p ↔ Leads dir q := by
  rw [Above, leads_iff_of_heldBy hp h]
  constructor
  · rintro ⟨he | hq, hne⟩
    · exact absurd he hne
    · exact hq
  · intro hq
    refine ⟨.inr hq, ?_⟩
    rintro rfl
    obtain ⟨init, name, hc, -, rfl⟩ := h.exists_concat fun hk => by simp [hp] at hk
    have hlength := hq.length_le
    rw [components_ofText_init hc, hc, List.length_append, List.length_singleton] at hlength
    omega

theorem exists_heldBy (hp : p.kind = .absolute) (hne : p.components ≠ []) : ∃ q, HeldBy p q := by
  refine Option.ne_none_iff_exists'.mp fun hnone => ?_
  rcases (parent?_eq_none_iff (by simp [hp])).mp hnone with ⟨hk, -⟩ | hnil
  · simp [hp] at hk
  · exact hne hnil

/-- A walk up to the top meets all that leads to the path, and what it meets later leads to what it
met before. -/
theorem leads_of_isChain (hp : p.kind = .absolute) (h : (p :: walk).IsChain HeldBy)
    (hlast : ∀ q, (p :: walk).getLast? = some q → q.parent? = none) :
    (∀ dir, dir ∈ p :: walk ↔ Leads dir p) ∧ (p :: walk).Pairwise fun a b => Leads b a := by
  induction walk generalizing p with
  | nil =>
    -- the top has no components, so that nothing but itself leads to it
    have hnone : p.parent? = none := hlast p rfl
    have hnil : p.components = [] := by
      by_contra hne
      obtain ⟨q, hq⟩ := exists_heldBy hp hne
      simp [HeldBy, hnone] at hq
    refine ⟨fun dir => ?_, List.pairwise_singleton _ _⟩
    rw [List.mem_singleton]
    constructor
    · rintro rfl
      exact .refl _
    · rintro ⟨hk, hstarts⟩
      rw [hnil, List.prefix_nil] at hstarts
      exact eq_of_kind_components hk (hstarts.trans hnil.symm)
  | cons q walk ih =>
    obtain ⟨hstep, hrest⟩ := List.isChain_cons_cons.mp h
    have hkind : q.kind = .absolute :=
      (hstep.holds fun hk => by simp [hp] at hk).kind_eq.trans hp
    obtain ⟨hmem, hpairwise⟩ := ih hkind hrest fun r hr => hlast r (by simpa using hr)
    constructor
    · intro dir
      rw [List.mem_cons, hmem, leads_iff_of_heldBy hp hstep]
    · refine List.pairwise_cons.mpr ⟨fun dir hdir => ?_, hpairwise⟩
      exact (leads_iff_of_heldBy hp hstep).mpr (.inr ((hmem dir).mp hdir))

theorem mem_upward_iff (hp : p.kind = .absolute) : dir ∈ p :: p.ancestors ↔ Leads dir p :=
  have hchain := climb_isChain (Nat.le_refl p.text.length)
  (leads_of_isChain hp hchain.1 hchain.2).1 dir

/-- The first directory on the way up that has a property is the longest one that has it. -/
theorem longest_of_split {P : Path → Prop} (hp : p.kind = .absolute)
    (hsplit : p :: p.ancestors = before ++ dir :: after) (hdir : P dir)
    (hno : ∀ other ∈ before, ¬P other) : Longest (fun dir => Leads dir p ∧ P dir) dir := by
  have hchain := climb_isChain (Nat.le_refl p.text.length)
  obtain ⟨hmem, hpairwise⟩ := leads_of_isChain hp hchain.1 hchain.2
  change (p :: p.ancestors).Pairwise _ at hpairwise
  refine ⟨⟨(mem_upward_iff hp).mp (by simp [hsplit]), hdir⟩, ?_⟩
  rintro other ⟨hleads, hother⟩
  have hm := (mem_upward_iff hp).mpr hleads
  rw [hsplit] at hm hpairwise
  -- what comes before does not have the property, and what comes after leads to the directory
  have hafter := (List.pairwise_cons.mp (List.pairwise_append.mp hpairwise).2.1).1
  rcases List.mem_append.mp hm with hm | hm
  · exact absurd hother (hno other hm)
  · rcases List.mem_cons.mp hm with rfl | hm
    · exact Nat.le_refl _
    · exact (hafter other hm).length_le

end BlockSync.Path
