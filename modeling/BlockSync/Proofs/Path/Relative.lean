import BlockSync.Proofs.Path.Normal

/-! The way from one path down to another. Texts are compared, but below a path that starts with one
slash this comes to the components: the way down is what follows those of the upper path, and joining
it leads back. -/

namespace BlockSync.Path

variable {p b : Path} {rest : Text} {names : List Text}

theorem kind_of_leading (h : leading p.text = 1) : p.kind = .absolute := by
  have hne : p.text ≠ [] := by
    intro he
    rw [he] at h
    exact absurd h (by decide)
  rw [Path.kind, kindOf_eq, h, if_neg hne]
  rfl

theorem text_of_absolute (hp : p.kind = .absolute) :
    p.text = '/' :: Text.joinWith "/" p.components := by
  have htext := text_eq_render p
  rw [hp] at htext
  exact htext

theorem splitOn_slash (t : Text) : ('/' :: t).splitOn '/' = [] :: t.splitOn '/' :=
  List.splitOn_append_cons_self [] t

theorem splitOn_of_absolute (hp : p.kind = .absolute) (hne : p.components ≠ []) :
    p.text.splitOn '/' = [] :: p.components := by
  rw [text_of_absolute hp, splitOn_slash, splitOn_joinWith (fun _ => plain_of_mem_components) hne]

theorem below_of_absolute (hb : b.kind = .absolute) (segment : Text) :
    b.below segment = '/' ::
      if b.components = [] then segment
      else Text.joinWith "/" b.components ++ '/' :: segment := by
  have htext := text_eq_render b
  rw [hb] at htext
  exact below_render (.inl rfl) (fun _ => plain_of_mem_components) htext segment

theorem splitOn_below (hb : b.kind = .absolute) (segment : Text) :
    (b.below segment).splitOn '/' = [] :: (b.components ++ segment.splitOn '/') := by
  rw [below_of_absolute hb, splitOn_slash]
  by_cases hne : b.components = []
  · rw [if_pos hne, hne, List.nil_append]
  · rw [if_neg hne, List.splitOn_append_cons_self,
      splitOn_joinWith (fun _ => plain_of_mem_components) hne]

theorem components_ne_nil_of_below (hp : p.kind = .absolute) (hb : b.kind = .absolute) (hne : p ≠ b)
    (h : p.text = b.below rest) : p.components ≠ [] := by
  intro hnone
  rw [text_of_absolute hp, hnone, below_of_absolute hb] at h
  have hrest := (List.cons.inj h).2
  by_cases hbase : b.components = []
  · exact hne (eq_of_kind_components (hp.trans hb.symm) (hnone.trans hbase.symm))
  · rw [if_neg hbase] at hrest
    exact absurd hrest (by simp [Text.joinWith])

/-- What lies below a path by its text lies below it by its components. -/
theorem exists_components_of_below (hp : p.kind = .absolute) (hb : b.kind = .absolute) (hne : p ≠ b)
    (h : p.text = b.below rest) :
    ∃ names, p.components = b.components ++ names ∧ rest = Text.joinWith "/" names := by
  have hsplit := splitOn_of_absolute hp (components_ne_nil_of_below hp hb hne h)
  rw [h, splitOn_below hb] at hsplit
  exact ⟨rest.splitOn '/', (List.cons.inj hsplit).2.symm, (List.intercalate_splitOn '/').symm⟩

theorem text_eq_below_joinWith (hp : p.kind = .absolute) (hb : b.kind = .absolute)
    (hne : names ≠ []) (h : p.components = b.components ++ names) :
    p.text = b.below (Text.joinWith "/" names) := by
  rw [text_of_absolute hp, h, below_of_absolute hb]
  by_cases hbase : b.components = []
  · rw [if_pos hbase, hbase, List.nil_append]
  · rw [if_neg hbase, Text.joinWith_append hbase hne]
    rfl

theorem relativeTo?_of_below (hne : p ≠ b) (h : p.text = b.below rest) :
    p.relativeTo? b = some rest := by
  have htext : p.text ≠ b.text := fun he => hne (eq_of_text he)
  rw [relativeTo?, if_neg htext, h]
  unfold below
  by_cases hlast : b.text.getLast? = some '/'
  · have hafter : Text.after? b.text (b.text ++ rest) = some rest := Text.after?_eq_some.mpr rfl
    rw [if_pos hlast, hafter]
    exact if_pos hlast
  · have hafter : Text.after? b.text (b.text ++ '/' :: rest) = some ('/' :: rest) :=
      Text.after?_eq_some.mpr rfl
    rw [if_neg hlast, hafter]
    exact if_neg hlast

/-- The way down is there exactly below the path, and it is the components that are left. -/
theorem relativeTo?_iff (hp : p.kind = .absolute) (hb : b.kind = .absolute) :
    p.relativeTo? b = some rest ↔
      ∃ names, p.components = b.components ++ names ∧ rest = Text.joinWith "/" names := by
  constructor
  · intro h
    rcases relativeTo?_eq_some h with ⟨rfl, rfl⟩ | ⟨hne, htext⟩
    · exact ⟨[], by simp, rfl⟩
    · exact exists_components_of_below hp hb hne htext
  · rintro ⟨names, hc, rfl⟩
    by_cases hnone : names = []
    · subst hnone
      rw [List.append_nil] at hc
      obtain rfl : p = b := eq_of_kind_components (hp.trans hb.symm) hc
      exact if_pos rfl
    · have hne : p ≠ b := by
        rintro rfl
        exact hnone (List.append_cancel_left (hc.symm.trans (List.append_nil _).symm))
      exact relativeTo?_of_below hne (text_eq_below_joinWith hp hb hnone hc)

theorem slashes_joinWith (hn : ∀ name ∈ names, '\\' ∉ name) :
    slashes (Text.joinWith "/" names) = Text.joinWith "/" names := by
  refine slashes_eq_self fun hm => ?_
  rcases Text.mem_or_of_mem_joinWith hm with h | ⟨name, hname, h⟩
  · simp at h
  · exact hn name hname h

theorem follow_joinWith (h : ∀ name ∈ names, Plain name) (hb : ∀ name ∈ names, '\\' ∉ name)
    (stack : List Text) : follow stack (Text.joinWith "/" names) = stack ++ names := by
  rw [follow, slashes_joinWith hb]
  by_cases hne : names = []
  · rw [hne, List.append_nil]
    rfl
  · rw [splitOn_joinWith h hne, foldl_push_plain h]

/-- Plain names neither climb nor double a slash, so that joining goes on by them. -/
theorem composes_joinWith (hne : b.text ≠ []) (h : ∀ name ∈ names, Plain name)
    (hb : ∀ name ∈ names, '\\' ∉ name) : Composes b (Text.joinWith "/" names) := by
  refine composes_of_not hne ?_ ?_
  · rintro ⟨hdot, hmoves⟩
    have hnone : names = [] := by
      rw [slashes_joinWith hb] at hdot
      rw [← componentsOf_joinWith h, ← componentsOf_clean, hdot]
      rfl
    exact hmoves (by rw [follow_joinWith h hb, hnone, List.append_nil])
  · intro hd
    have hhead := hd.head
    rw [slashes_joinWith hb] at hhead
    exact head_joinWith h hhead

/-- Joining plain names to an absolute path puts them behind its components. -/
theorem join_joinWith (hb : b.kind = .absolute) (h : ∀ name ∈ names, Plain name)
    (hs : ∀ name ∈ names, '\\' ∉ name) : (b.join (Text.joinWith "/" names)).kind = .absolute ∧
      (b.join (Text.joinWith "/" names)).components = b.components ++ names := by
  have hne : b.text ≠ [] := by
    rw [text_of_absolute hb]
    exact List.cons_ne_nil _ _
  have hcomposes := composes_joinWith hne h hs
  exact ⟨hcomposes.kind_eq.trans hb, by rw [hcomposes.components_eq, follow_joinWith h hs]⟩

/-- A path without a slash in front, other than the dot, is its components. -/
theorem text_of_relative {r : Path} (h : leading r.text = 0) (hdot : r.text ≠ ".") :
    r.text = Text.joinWith "/" r.components := by
  have htext := text_eq_render r
  have hkind := kindOf_eq r.text
  rw [← Path.kind, h] at hkind
  by_cases hne : r.text = []
  · rw [if_pos hne] at hkind
    rwa [hkind] at htext
  · rw [if_neg hne, if_pos rfl] at hkind
    rw [hkind] at htext
    rwa [render_of_relative] at htext
    intro hnone
    rw [hnone] at htext
    exact hdot htext

/-- What the way from one path to another promises: it is there exactly if the components of the
upper path start those of the lower one, it is made of the components that are left, joining it leads
back, and what was joined is the way. -/
structure Inverts (p b : Path) : Prop where
  relativeTo?_iff : ∀ rest, p.relativeTo? b = some rest ↔
    ∃ names, p.components = b.components ++ names ∧ rest = Text.joinWith "/" names
  join_relativeTo? : ∀ rest, p.relativeTo? b = some rest → b.join rest = p
  relativeTo?_join : ∀ r : Path, leading r.text = 0 → r.text ≠ "." →
    (b.join r.text).relativeTo? b = some r.text

theorem inverts_of_leading (hp : leading p.text = 1) (hb : leading b.text = 1) : Inverts p b := by
  have hp := kind_of_leading hp
  have hb := kind_of_leading hb
  constructor
  case relativeTo?_iff =>
    exact fun rest => relativeTo?_iff hp hb
  case join_relativeTo? =>
    intro rest h
    obtain ⟨names, hc, rfl⟩ := (relativeTo?_iff hp hb).mp h
    have hmem : ∀ name ∈ names, name ∈ p.components := fun name hn => by simp [hc, hn]
    obtain ⟨hkind, hcomponents⟩ :=
      join_joinWith hb (fun name hn => plain_of_mem_components (hmem name hn))
        fun name hn => not_mem_of_mem_components (hmem name hn)
    exact eq_of_kind_components (hkind.trans hp.symm) (hcomponents.trans hc.symm)
  case relativeTo?_join =>
    intro r hr hdot
    have hplain : ∀ name ∈ r.components, Plain name := fun _ => plain_of_mem_components
    obtain ⟨hkind, hcomponents⟩ := join_joinWith hb hplain fun _ => not_mem_of_mem_components
    rw [text_of_relative hr hdot]
    exact (relativeTo?_iff hkind hb).mpr ⟨r.components, hcomponents, rfl⟩

/-- A name that starts like that of the directory does not lie below it. -/
theorem inverts_siblings :
    let docs := Path.ofText "/repo/docs"
    let guide := Path.ofText "/repo/docs/guide.md"
    let docsets := Path.ofText "/repo/docsets/a.md"
    (leading guide.text = 1 ∧ leading docs.text = 1 ∧ guide.relativeTo? docs = some "guide.md" ∧
        docs.join "guide.md" = guide) ∧
      leading docsets.text = 1 ∧ docsets.relativeTo? docs = none := by
  intro docs guide docsets
  have hdocs : leading docs.text = 1 := by decide
  have hguide : leading guide.text = 1 := by decide
  have hdocsets : leading docsets.text = 1 := by decide
  have hway : guide.relativeTo? docs = some "guide.md" :=
    ((inverts_of_leading hguide hdocs).relativeTo?_iff _).mpr ⟨["guide.md"], by decide, by decide⟩
  refine ⟨⟨hguide, hdocs, hway, (inverts_of_leading hguide hdocs).join_relativeTo? _ hway⟩, hdocsets,
    ?_⟩
  apply Option.eq_none_iff_forall_ne_some.mpr
  intro rest h
  obtain ⟨names, hc, -⟩ := ((inverts_of_leading hdocsets hdocs).relativeTo?_iff rest).mp h
  have hprefix : docs.components <+: docsets.components := ⟨names, hc.symm⟩
  exact absurd hprefix (by decide)

end BlockSync.Path
