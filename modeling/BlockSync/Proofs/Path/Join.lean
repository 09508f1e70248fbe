import BlockSync.Proofs.Path.Below

/-! Joining told by components. A path is its kind and its components, and a segment is meant to go
on from these one by one. Two sorts of segments do not: one that only climbs is not followed, and a
slash that leads a segment is taken for one of those that a top consists of. -/

namespace BlockSync.Path

def kind (p : Path) : Kind :=
  kindOf p.text

def components (p : Path) : List Text :=
  componentsOf p.text

/-- What components become when a segment goes on from them; its backslashes are slashes. -/
def follow (components : List Text) (segment : Text) : List Text :=
  ((slashes segment).splitOn '/').foldl push components

/-- Joining keeps the kind of the path and goes on from its components. -/
structure Composes (p : Path) (segment : Text) : Prop where
  kind_eq : (p.join segment).kind = p.kind
  components_eq : (p.join segment).components = follow p.components segment

/-- The segment has no component of its own left, but takes some of the path away. -/
def Climbs (p : Path) (segment : Text) : Prop :=
  clean (slashes segment) = "." ∧ follow p.components segment ≠ p.components

/-- The path is a top, and its slashes and those that lead the segment are those of another kind. -/
def Doubles (p : Path) (segment : Text) : Prop :=
  p.text = "/" ∧ kindOf ('/' :: slashes segment) = .network ∨
    p.text = "//" ∧ (slashes segment).head? = some '/'

variable {p q : Path} {segment : Text}

theorem clean_text (p : Path) : clean p.text = p.text := by
  have ht : clean (slashes p.text) = p.text := congrArg Path.text (ofText_text p)
  rwa [slashes_eq_self p.not_mem_text] at ht

theorem text_eq_render (p : Path) : p.text = render p.kind p.components :=
  p.clean_text.symm

theorem eq_of_kind_components (hk : p.kind = q.kind) (hc : p.components = q.components) : p = q := by
  apply eq_of_text
  rw [text_eq_render p, text_eq_render q, hk, hc]

theorem plain_of_mem_components {name : Text} (h : name ∈ p.components) : Plain name :=
  plain_of_mem_componentsOf h

theorem not_mem_of_mem_components {name : Text} (h : name ∈ p.components) : '\\' ∉ name :=
  fun hm => p.not_mem_text (mem_of_mem_componentsOf h hm)

theorem follow_append (names : List Text) (s t : Text) :
    follow names (s ++ '/' :: t) = follow (follow names s) t := by
  have hs : slashes (s ++ '/' :: t) = slashes s ++ '/' :: slashes t := by simp [slashes]
  rw [follow, hs, List.splitOn_append_cons_self, List.foldl_append]
  rfl

theorem follow_of_plain {name : Text} (h : Plain name) (hb : '\\' ∉ name) (names : List Text) :
    follow names name = names ++ [name] := by
  have hsplit : (slashes name).splitOn '/' = [name] := by
    have hj : (Text.joinWith "/" [name]).splitOn '/' = [name] :=
      splitOn_joinWith (by simpa using h) (by simp)
    rw [slashes_eq_self hb]
    simpa [Text.joinWith] using hj
  rw [follow, hsplit, List.foldl_cons, push_plain h]
  rfl

theorem clean_ne_of_head {t : Text} (h : t.head? = some '/') : clean t ≠ "." := by
  intro he
  have hk := kindOf_of_head h
  rw [← kindOf_clean, he] at hk
  simp [kindOf] at hk

/-- A segment without components that does not start at the top is empty or cleans to a dot. -/
theorem eq_nil_or_clean_eq {t : Text} (hhead : t.head? ≠ some '/') (hc : componentsOf t = []) :
    t = [] ∨ clean t = "." := by
  cases t with
  | nil => exact .inl rfl
  | cons c rest =>
    have hk : kindOf (c :: rest) = .relative := kindOf_cons rest (by simpa using hhead)
    rw [clean, hk, hc]
    exact .inr rfl

theorem join_of_clean (h : clean (slashes segment) = ".") : p.join segment = p :=
  if_pos (.inr h)

/-- A doubled slash is glued to the top, which makes a path of the other kind. -/
theorem text_join_of_head (hne : p.text ≠ []) (h : (slashes segment).head? = some '/') :
    (p.join segment).text = clean (p.below (slashes segment)) :=
  (join_cases hne segment).resolve_left fun hc => hc.2.1 h

theorem Doubles.head (h : Doubles p segment) : (slashes segment).head? = some '/' := by
  rcases h with ⟨-, hk⟩ | ⟨-, hh⟩
  · generalize slashes segment = t at hk
    unfold kindOf at hk
    split at hk <;> simp_all
  · exact hh

theorem Doubles.kind_join (h : Doubles p segment) :
    p.kind = .absolute ∧ (p.join segment).kind = .network ∨
      p.kind = .network ∧ (p.join segment).kind = .absolute := by
  have hne : p.text ≠ [] := by
    rcases h with ⟨ht, -⟩ | ⟨ht, -⟩ <;> simp [ht]
  have hjoin : (p.join segment).kind = kindOf (p.below (slashes segment)) := by
    rw [kind, text_join_of_head hne h.head, kindOf_clean]
  obtain ⟨rest, hrest⟩ := List.head?_eq_some_iff.mp h.head
  rcases h with ⟨ht, hk⟩ | ⟨ht, hh⟩
  · refine .inl ⟨by rw [kind, ht]; rfl, ?_⟩
    rw [hjoin, below, ht]
    exact hk
  · refine .inr ⟨by rw [kind, ht]; rfl, ?_⟩
    rw [hjoin, below, ht, hrest]
    rfl

theorem kindOf_below_of_not_doubles (hne : p.text ≠ []) (h : ¬Doubles p segment) :
    kindOf (p.below (slashes segment)) = p.kind := by
  by_cases hr : p.Rooted
  · obtain ⟨kind, names, hk, hn, hp⟩ := hr.exists_render
    have hkind : p.kind = kind := by
      rw [Path.kind, hp]
      exact kindOf_render hn fun he => by rcases hk with rfl | rfl <;> simp at he
    by_cases hnames : names = []
    · subst hnames
      rcases hk with rfl | rfl
      · have hbelow : p.below (slashes segment) = '/' :: slashes segment := by
          rw [below, hp]
          rfl
        rw [hbelow, hkind]
        refine (kindOf_of_head rfl).resolve_right fun hnetwork => h (.inl ⟨hp, hnetwork⟩)
      · rw [hkind]
        exact kindOf_below (.inr rfl) hn hp fun _ hh => h (.inr ⟨hp, hh⟩)
    · rw [hkind]
      exact kindOf_below hk hn hp fun he => absurd he hnames
  · obtain ⟨c, rest, ht⟩ := List.exists_cons_of_ne_nil hne
    have hc : c ≠ '/' := by
      rintro rfl
      exact hr (by rw [Rooted, ht]; rfl)
    have hbelow : ∃ more, p.below (slashes segment) = c :: more := by
      rw [below, ht]
      split
      next => exact ⟨_, rfl⟩
      next => exact ⟨_, rfl⟩
    obtain ⟨more, hmore⟩ := hbelow
    rw [hmore, kindOf_cons more hc, kind, ht, kindOf_cons rest hc]

theorem kind_join_of_not_doubles (hne : p.text ≠ []) (h : ¬Doubles p segment) :
    (p.join segment).kind = p.kind := by
  rcases join_cases hne segment with ⟨hj, -⟩ | hj
  · rw [hj]
  · rw [kind, hj, kindOf_clean, kindOf_below_of_not_doubles hne h]

theorem components_join_of_not_climbs (hne : p.text ≠ []) (h : ¬Climbs p segment) :
    (p.join segment).components = follow p.components segment := by
  rcases join_cases hne segment with ⟨hj, hhead, hc⟩ | hj
  · rw [hj]
    rcases eq_nil_or_clean_eq hhead hc with hnil | hdot
    · rw [follow, hnil]
      rfl
    · exact (not_not.mp fun hm => h ⟨hdot, hm⟩).symm
  · rw [components, hj, componentsOf_clean, componentsOf_below]
    rfl

theorem composes_of_not (hne : p.text ≠ []) (hc : ¬Climbs p segment) (hd : ¬Doubles p segment) :
    Composes p segment :=
  ⟨kind_join_of_not_doubles hne hd, components_join_of_not_climbs hne hc⟩

theorem Composes.not_climbs (h : Composes p segment) : ¬Climbs p segment := by
  rintro ⟨hdot, hm⟩
  have hc := h.components_eq
  rw [join_of_clean hdot] at hc
  exact hm hc.symm

theorem Composes.not_doubles (h : Composes p segment) : ¬Doubles p segment := by
  intro hd
  have hk := h.kind_eq
  rcases hd.kind_join with ⟨hp, hj⟩ | ⟨hp, hj⟩
  · rw [hp, hj] at hk
    simp at hk
  · rw [hp, hj] at hk
    simp at hk

/-- What joining does from a path: a segment is followed component by component unless it climbs or
doubles the slash of a top, segments that are followed may be joined in one step or in two, and only
a doubled slash leads from a local path to a network path. -/
structure Joins (p : Path) (s t : Text) : Prop where
  composes_iff : Composes p s ↔ ¬Climbs p s ∧ ¬Doubles p s
  climbs : Climbs p s → p.join s = p
  doubles : Doubles p s → (p.join s).components = follow p.components s ∧
    (p.kind = .absolute ∧ (p.join s).kind = .network ∨
      p.kind = .network ∧ (p.join s).kind = .absolute)
  join_join : Composes p s → Composes (p.join s) t → Composes p (s ++ '/' :: t) →
    (p.join s).join t = p.join (s ++ '/' :: t)
  network_iff : p.kind ≠ .network →
    ((p.join s).kind = .network ↔ p.text = "/" ∧ kindOf ('/' :: slashes s) = .network)

theorem joins_of_ne_nil (hne : p.text ≠ []) (s t : Text) : Joins p s t := by
  constructor
  case composes_iff =>
    exact ⟨fun h => ⟨h.not_climbs, h.not_doubles⟩, fun h => composes_of_not hne h.1 h.2⟩
  case climbs =>
    exact fun h => join_of_clean h.1
  case doubles =>
    intro h
    have hc : ¬Climbs p s := fun hc => clean_ne_of_head h.head hc.1
    exact ⟨components_join_of_not_climbs hne hc, h.kind_join⟩
  case join_join =>
    intro hs ht hst
    apply eq_of_kind_components
    · rw [ht.kind_eq, hs.kind_eq, hst.kind_eq]
    · rw [ht.components_eq, hs.components_eq, hst.components_eq, follow_append]
  case network_iff =>
    intro hlocal
    constructor
    · intro hnetwork
      by_contra htop
      have hd : ¬Doubles p s := by
        rintro (h | ⟨ht, -⟩)
        · exact htop h
        · exact hlocal (by rw [kind, ht]; rfl)
      rw [kind_join_of_not_doubles hne hd] at hnetwork
      exact hlocal hnetwork
    · intro htop
      rcases Doubles.kind_join (.inl htop) with ⟨-, hj⟩ | ⟨hp, -⟩
      · exact hj
      · exact absurd hp hlocal

/-- Two dots on their own do not lead up, and a slash behind that of the top makes it a network. -/
theorem joins_strays :
    ((ofText "/a/b").text ≠ [] ∧ Climbs (ofText "/a/b") ".." ∧ ¬Composes (ofText "/a/b") "..") ∧
      (ofText "/").text ≠ [] ∧ Doubles (ofText "/") "/a" ∧
        ((ofText "/").join "/a").kind = .network := by
  have hdeep : (ofText "/a/b").text ≠ [] := by decide
  have htop : (ofText "/").text ≠ [] := by decide
  have hclimbs : Climbs (ofText "/a/b") ".." := ⟨by decide, by decide⟩
  have hdoubles : Doubles (ofText "/") "/a" := .inl ⟨by decide, by decide⟩
  refine ⟨⟨hdeep, hclimbs, fun h => ?_⟩, htop, hdoubles, ?_⟩
  · exact ((joins_of_ne_nil hdeep ".." []).composes_iff.mp h).1 hclimbs
  · exact ((joins_of_ne_nil htop "/a" []).network_iff (by decide)).mpr ⟨by decide, by decide⟩

end BlockSync.Path
