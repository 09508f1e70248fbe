import BlockSync.Proofs.Path.Join

/-! The way up from a path. A directory has the components of a path but the last one, which is the
name that leads back to the path, so that the way up ends. Network paths are the exception: above
their first component stands the top of this machine. -/

namespace BlockSync.Path

variable {p q : Path} {name : Text} {init names : List Text} {kind : Kind}

/-- The second path is the directory that holds the first one. -/
def HeldBy (p q : Path) : Prop :=
  p.parent? = some q

theorem text_ofText_render (h : ∀ name ∈ names, Plain name) (hb : ∀ name ∈ names, '\\' ∉ name)
    (he : kind = .empty → names = []) : (ofText (render kind names)).text = render kind names := by
  have hslashes : '\\' ∉ render kind names := by
    intro hm
    rcases mem_render hm with hc | hc | ⟨name, hn, hc⟩
    · simp at hc
    · simp at hc
    · exact hb name hn hc
  have htext : (ofText (render kind names)).text = clean (slashes (render kind names)) := rfl
  rw [htext, slashes_eq_self hslashes, clean_render h he]

theorem getLast?_render (h : ∀ name ∈ names, Plain name) (hne : names ≠ []) :
    (render kind names).getLast? ≠ some '/' := by
  have hjoin : Text.joinWith "/" names ≠ [] := fun he => hne (joinWith_eq_nil h he)
  have hlast := getLast?_joinWith h
  cases kind with
  | empty => exact hlast
  | relative => rwa [render_of_relative hne]
  | absolute => rwa [render, List.getLast?_append_of_ne_nil _ hjoin]
  | network => rwa [render, List.getLast?_append_of_ne_nil _ hjoin]

theorem kind_ne_empty (h : p.components ≠ []) : p.kind ≠ .empty :=
  fun he => h (componentsOf_of_kindOf_empty he)

section Concat

variable (h : p.components = init ++ [name])

include h

theorem kind_ne_empty_of_concat : p.kind ≠ .empty :=
  kind_ne_empty (by simp [h])

theorem plain_last : Plain name :=
  plain_of_mem_components (p := p) (by simp [h])

theorem text_ofText_init : (ofText (render p.kind init)).text = render p.kind init :=
  text_ofText_render (fun n hn => plain_of_mem_components (p := p) (by simp [h, hn]))
    (fun n hn => not_mem_of_mem_components (p := p) (by simp [h, hn]))
    fun he => absurd he (kind_ne_empty_of_concat h)

theorem kind_ofText_init : (ofText (render p.kind init)).kind = p.kind := by
  rw [Path.kind, text_ofText_init h]
  exact kindOf_render (fun n hn => plain_of_mem_components (p := p) (by simp [h, hn]))
    fun he => absurd he (kind_ne_empty_of_concat h)

theorem components_ofText_init : (ofText (render p.kind init)).components = init := by
  rw [components, text_ofText_init h]
  exact componentsOf_render fun n hn => plain_of_mem_components (p := p) (by simp [h, hn])

theorem text_of_concat (hne : init ≠ []) : p.text = render p.kind init ++ '/' :: name := by
  rw [text_eq_render p, h, render_concat (kind_ne_empty_of_concat h) hne]

theorem text_of_top (hne : init = []) (hk : p.kind = .absolute) : p.text = [] ++ '/' :: name := by
  rw [text_eq_render p, h, hne, hk]
  simp [render, Text.joinWith]

/-- The directory has the components but the last one, if any are left or the path starts at the
top. -/
theorem parent?_of_concat (hk : init = [] → p.kind = .absolute) :
    p.parent? = some (ofText (render p.kind init)) := by
  by_cases hne : init = []
  · rw [parent?_of_below (text_of_top h hne (hk hne)) (plain_last h), if_pos rfl, hne, hk hne]
    rfl
  · have hhead : render p.kind init ≠ [] := by
      intro he
      have hc := components_ofText_init h
      rw [he] at hc
      exact hne hc.symm
    rw [parent?_of_below (text_of_concat h hne) (plain_last h), if_neg hhead]

theorem text_eq_below (hk : init = [] → p.kind = .absolute) :
    p.text = (ofText (render p.kind init)).below name := by
  by_cases hne : init = []
  · have hlast : (ofText (render .absolute [])).text.getLast? = some '/' := by decide
    rw [text_of_top h hne (hk hne), hne, hk hne, below, if_pos hlast]
    rfl
  · have hlast : (render p.kind init).getLast? ≠ some '/' :=
      getLast?_render (fun n hn => plain_of_mem_components (p := p) (by simp [h, hn])) hne
    rw [below, text_ofText_init h, if_neg hlast, text_of_concat h hne]

theorem text_of_share (hne : init = []) (hk : p.kind = .network) :
    p.text = "/" ++ '/' :: name := by
  rw [text_eq_render p, h, hne, hk]
  simp [render, Text.joinWith]

theorem fileName?_of_concat : p.fileName? = some name := by
  have hn := plain_last h
  by_cases hne : init = []
  · cases hk : p.kind with
    | empty => exact absurd hk (kind_ne_empty_of_concat h)
    | relative =>
      have htext : p.text = name := by
        rw [text_eq_render p, h, hne, hk]
        simp [render, Text.joinWith]
      rw [← htext]
      exact fileName?_of_bare (htext ▸ hn)
    | absolute => exact fileName?_of_below (text_of_top h hne hk) hn
    | network => exact fileName?_of_below (text_of_share h hne hk) hn
  · exact fileName?_of_below (text_of_concat h hne) hn

/-- The last component leads back from the directory. -/
theorem join_ofText_init : (ofText (render p.kind init)).join name = p := by
  have hn := plain_last h
  have hb : '\\' ∉ name := not_mem_of_mem_components (p := p) (by simp [h])
  have hslashes := slashes_eq_self hb
  have hkind := kind_ofText_init h
  have hne : (ofText (render p.kind init)).text ≠ [] := by
    intro he
    rw [Path.kind, he] at hkind
    exact kind_ne_empty_of_concat h hkind.symm
  have hc : ¬Climbs (ofText (render p.kind init)) name := by
    rintro ⟨hdot, -⟩
    have hclean : clean name = name := by
      have hr : clean (render .relative [name]) = render .relative [name] :=
        clean_render (by simpa using hn) (by simp)
      simpa [render, Text.joinWith] using hr
    rw [hslashes, hclean] at hdot
    exact hn.2.1 hdot
  have hd : ¬Doubles (ofText (render p.kind init)) name := by
    intro hd
    have hhead := hd.head
    rw [hslashes] at hhead
    exact hn.2.2.2 (List.mem_of_mem_head? hhead)
  have hcomposes := composes_of_not hne hc hd
  apply eq_of_kind_components
  · rw [hcomposes.kind_eq, hkind]
  · rw [hcomposes.components_eq, components_ofText_init h, follow_of_plain hn hb, h]

end Concat

theorem text_of_components_nil (h : p.components = []) : p.text = render p.kind [] := by
  rw [text_eq_render p, h]

/-- Without a component there is nothing above but, for network paths, the top of this machine. -/
theorem parent?_of_components_nil (h : p.components = []) :
    p.parent? = if p.kind = .network then some (ofText "/") else none := by
  have htext := text_of_components_nil h
  cases hk : p.kind with
  | empty | relative | absolute | network =>
    rw [hk] at htext
    rw [parent?, htext]
    rfl

theorem parent?_of_relative (h : p.components = [name]) (hk : p.kind = .relative) :
    p.parent? = none := by
  have htext : p.text = name := by
    rw [text_eq_render p, h, hk]
    simp [render, Text.joinWith]
  exact parent?_of_bare (htext ▸ plain_of_mem_components (p := p) (by simp [h]))

theorem parent?_of_network (hk : p.kind = .network) :
    p.parent? = some (if p.components.length ≤ 1 then ofText "/"
      else ofText (render .network p.components.dropLast)) := by
  rcases List.eq_nil_or_concat p.components with h | ⟨init, name, h⟩
  · rw [parent?_of_components_nil h, h, if_pos hk]
    rfl
  · rw [List.concat_eq_append] at h
    by_cases hne : init = []
    · rw [parent?_of_below (text_of_share h hne hk) (plain_last h), h, hne]
      rfl
    · have hlength : ¬p.components.length ≤ 1 := by
        have hpos := List.length_pos_iff.mpr hne
        rw [h, List.length_append, List.length_singleton]
        omega
      rw [parent?_of_concat h fun he => absurd he hne, if_neg hlength, hk, h, List.dropLast_concat]

/-- What the directory of a path promises. -/
structure Holds (p q : Path) : Prop where
  kind_eq : q.kind = p.kind
  components_eq : q.components = p.components.dropLast
  shorter : q.text.length < p.text.length
  name : ∃ name, p.fileName? = some name ∧ p.text = q.below name ∧ q.join name = p

theorem HeldBy.exists_concat (hp : p.kind = .network → 1 < p.components.length) (h : HeldBy p q) :
    ∃ init name, p.components = init ++ [name] ∧ (init = [] → p.kind = .absolute) ∧
      q = ofText (render p.kind init) := by
  rcases List.eq_nil_or_concat p.components with hc | ⟨init, name, hc⟩
  · have hlocal : p.kind ≠ .network := fun hk => by simpa [hc] using hp hk
    rw [HeldBy, parent?_of_components_nil hc, if_neg hlocal] at h
    simp at h
  · rw [List.concat_eq_append] at hc
    have hk : init = [] → p.kind = .absolute := by
      rintro rfl
      cases hk : p.kind with
      | empty => exact absurd hk (kind_ne_empty_of_concat hc)
      | relative =>
        rw [HeldBy, parent?_of_relative hc hk] at h
        simp at h
      | absolute => rfl
      | network => simpa [hc] using hp hk
    refine ⟨init, name, hc, hk, ?_⟩
    rw [HeldBy, parent?_of_concat hc hk] at h
    exact (Option.some.inj h).symm

theorem HeldBy.holds (hp : p.kind = .network → 1 < p.components.length) (h : HeldBy p q) :
    Holds p q := by
  obtain ⟨init, name, hc, hk, rfl⟩ := h.exists_concat hp
  have hbelow := text_eq_below hc hk
  refine ⟨kind_ofText_init hc, ?_, ?_, name, fileName?_of_concat hc, hbelow, join_ofText_init hc⟩
  · rw [components_ofText_init hc, hc, List.dropLast_concat]
  · have hlength := length_below (ofText (render p.kind init)) name
    have hpos := List.length_pos_iff.mpr (plain_last hc).1
    rw [← hbelow] at hlength
    omega

theorem parent?_of_short (hk : p.kind = .network) (hc : p.components.length ≤ 1) :
    p.parent? = some (ofText "/") := by
  rw [parent?_of_network hk, if_pos hc]

theorem HeldBy.length_lt (h : HeldBy p q) : q.text.length < p.text.length := by
  by_cases hp : p.kind = .network ∧ p.components.length ≤ 1
  · have htop : q = ofText "/" := Option.some.inj (h.symm.trans (parent?_of_short hp.1 hp.2))
    have hlength : (ofText "/").text.length = 1 := by decide
    have htext := text_eq_render p
    rw [hp.1] at htext
    rw [htop, htext, hlength, render, List.length_append]
    exact Nat.lt_add_right _ (by decide)
  · exact (h.holds fun hk => Nat.lt_of_not_le fun hc => hp ⟨hk, hc⟩).shorter

theorem parent?_eq_none_iff (hlocal : p.kind ≠ .network) :
    p.parent? = none ↔ p.kind = .relative ∧ p.components.length ≤ 1 ∨ p.components = [] := by
  rcases List.eq_nil_or_concat p.components with hc | ⟨init, name, hc⟩
  · rw [parent?_of_components_nil hc, if_neg hlocal]
    simp [hc]
  · rw [List.concat_eq_append] at hc
    constructor
    · intro hnone
      by_contra hno
      have hk : init = [] → p.kind = .absolute := by
        rintro rfl
        cases hk : p.kind with
        | empty => exact absurd hk (kind_ne_empty_of_concat hc)
        | relative => exact absurd (.inl ⟨hk, by simp [hc]⟩) hno
        | absolute => rfl
        | network => exact absurd hk hlocal
      rw [parent?_of_concat hc hk] at hnone
      simp at hnone
    · rintro (⟨hk, hlength⟩ | hnil)
      · obtain rfl : init = [] := by simpa [hc] using hlength
        exact parent?_of_relative hc hk
      · simp [hc] at hnil

/-- A walk up from a local path takes a component away at each step and never leaves its kind. -/
theorem walk_of_isChain {walk : List Path} (hlocal : p.kind ≠ .network)
    (h : (p :: walk).IsChain HeldBy) :
    walk.length ≤ p.components.length ∧ ∀ q ∈ walk, q.kind = p.kind := by
  induction walk generalizing p with
  | nil => simp
  | cons q walk ih =>
    obtain ⟨hstep, hrest⟩ := List.isChain_cons_cons.mp h
    have hholds := hstep.holds fun hk => absurd hk hlocal
    have hne : p.components ≠ [] := by
      intro hc
      rw [HeldBy, (parent?_eq_none_iff hlocal).mpr (.inr hc)] at hstep
      simp at hstep
    obtain ⟨hlength, hkinds⟩ := ih (hholds.kind_eq ▸ hlocal) hrest
    rw [hholds.components_eq, List.length_dropLast] at hlength
    have hpos := List.length_pos_iff.mpr hne
    refine ⟨by rw [List.length_cons]; omega, fun x hx => ?_⟩
    rcases List.mem_cons.mp hx with rfl | hx
    · exact hholds.kind_eq
    · rw [hkinds x hx, hholds.kind_eq]

/-- The way up is walked to its end: texts get shorter, so that there are steps enough for it. -/
theorem climb_isChain {n : Nat} (hn : p.text.length ≤ n) :
    (p :: ancestors.climb n p).IsChain HeldBy ∧
      ∀ q, (p :: ancestors.climb n p).getLast? = some q → q.parent? = none := by
  induction n generalizing p with
  | zero =>
    have hnil : p.text = [] := List.length_eq_zero_iff.mp (Nat.le_zero.mp hn)
    have hnone : p.parent? = none := by
      rw [parent?, hnil]
      rfl
    simp [ancestors.climb, hnone]
  | succ n ih =>
    cases hp : p.parent? with
    | none => simp [ancestors.climb, hp]
    | some q =>
      have hstep : HeldBy p q := hp
      have hshort := hstep.length_lt
      obtain ⟨hchain, hlast⟩ := ih (p := q) (by omega)
      simp only [ancestors.climb, hp]
      exact ⟨.cons_cons hstep hchain, by simpa using hlast⟩

/-- The way up from a network path leaves the network in the end. -/
theorem getLast?_climb {n : Nat} (hk : p.kind = .network) (hn : p.text.length ≤ n) :
    (ancestors.climb n p).getLast? = some (ofText "/") := by
  induction n generalizing p with
  | zero =>
    have hnil : p.text = [] := List.length_eq_zero_iff.mp (Nat.le_zero.mp hn)
    rw [kind, hnil] at hk
    simp [kindOf] at hk
  | succ n ih =>
    by_cases hc : p.components.length ≤ 1
    · have hend : ancestors.climb n (ofText "/") = [] := by
        cases n with
        | zero => rfl
        | succ n => rfl
      simp only [ancestors.climb, parent?_of_short hk hc, hend]
      rfl
    · cases hp : p.parent? with
      | none => simp [parent?_of_network hk] at hp
      | some q =>
        have hstep : HeldBy p q := hp
        have hshort := hstep.length_lt
        have hholds := hstep.holds fun _ => Nat.lt_of_not_le hc
        have hlast := ih (hholds.kind_eq.trans hk) (by omega)
        simp [ancestors.climb, hp, List.getLast?_cons, hlast]

/-- What the way up from a path promises. -/
structure Ascends (p : Path) : Prop where
  parent?_eq_none_iff : p.parent? = none ↔
    p.kind = .relative ∧ p.components.length ≤ 1 ∨ p.components = []
  holds : ∀ q, HeldBy p q → Holds p q
  walk : ∀ walk, (p :: walk).IsChain HeldBy →
    walk.length ≤ p.components.length ∧ ∀ q ∈ walk, q.kind = p.kind
  ancestors : (p :: p.ancestors).IsChain HeldBy ∧
    ∀ q, (p :: p.ancestors).getLast? = some q → q.parent? = none

/-- The way up keeps its promise exactly on local paths. From a network path it ends at the top of
this machine, which stands directly above all network paths with at most one component. -/
theorem ascends_iff (p : Path) :
    (Ascends p ↔ p.kind ≠ .network) ∧
      (p.kind = .network →
        p.ancestors.getLast? = some (ofText "/") ∧
          (p.components.length ≤ 1 → p.parent? = some (ofText "/")) ∧
            (1 < p.components.length → ∀ q, HeldBy p q → Holds p q)) := by
  refine ⟨⟨fun h hk => ?_, fun hlocal => ?_⟩, fun hk => ⟨?_, parent?_of_short hk, ?_⟩⟩
  · have hlast : p.ancestors.getLast? = some (ofText "/") := getLast?_climb hk (Nat.le_refl _)
    have hkind := (h.walk _ h.ancestors.1).2 _ (List.mem_of_getLast? hlast)
    rw [hk] at hkind
    exact absurd hkind (by decide)
  · exact ⟨Path.parent?_eq_none_iff hlocal, fun q hq => hq.holds fun hk => absurd hk hlocal,
      fun walk hw => walk_of_isChain hlocal hw, climb_isChain (Nat.le_refl _)⟩
  · exact getLast?_climb hk (Nat.le_refl _)
  · exact fun hc q hq => hq.holds fun _ => hc

theorem not_ascends_host :
    ¬Ascends (ofText "//host") ∧ (ofText "//host").parent? = some (ofText "/") := by
  have hk : (ofText "//host").kind = .network := by decide
  obtain ⟨hiff, hnetwork⟩ := ascends_iff (ofText "//host")
  exact ⟨fun h => hiff.mp h hk, (hnetwork hk).2.1 (by decide)⟩

end BlockSync.Path
