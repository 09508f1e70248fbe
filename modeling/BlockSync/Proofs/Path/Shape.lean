import BlockSync.Proofs.Path
import BlockSync.Proofs.Text

/-! The last component of a clean path and what stands before it. -/

namespace BlockSync

theorem Text.joinWith_append {separator : Text} {parts more : List Text} (h : parts ≠ [])
    (hmore : more ≠ []) : Text.joinWith separator (parts ++ more) =
      Text.joinWith separator parts ++ (separator ++ Text.joinWith separator more) := by
  induction parts with
  | nil => exact absurd rfl h
  | cons first rest ih =>
    cases rest with
    | nil =>
      obtain ⟨second, rest, rfl⟩ := List.exists_cons_of_ne_nil hmore
      simp [Text.joinWith, List.intercalate_cons_cons]
    | cons second rest =>
      have hh := ih (by simp)
      simp only [Text.joinWith, List.cons_append, List.intercalate_cons_cons] at hh ⊢
      rw [hh]
      simp only [List.append_assoc]

namespace Path

/-- A clean text is one of four that end in no name, or a plain name, which may stand behind the clean
text of the directory above it. -/
inductive Shape : Text → Prop
  | empty : Shape []
  | here : Shape "."
  | top : Shape "/"
  | network : Shape "//"
  | bare {name : Text} (hn : Plain name) : Shape name
  | below {head name : Text} (hn : Plain name) (hh : head ≠ [] → clean head = head) :
      Shape (head ++ '/' :: name)

theorem render_concat {kind : Kind} (hk : kind ≠ .empty) {init : List Text} (hne : init ≠ [])
    (name : Text) : render kind (init ++ [name]) = render kind init ++ '/' :: name := by
  have hjoin : Text.joinWith "/" (init ++ [name]) = Text.joinWith "/" init ++ '/' :: name := by
    rw [Text.joinWith_append hne (by simp)]
    simp [Text.joinWith]
  obtain ⟨first, more, rfl⟩ := List.exists_cons_of_ne_nil hne
  cases kind with
  | empty => exact absurd rfl hk
  | relative => exact hjoin
  | absolute => rw [render, render, hjoin, List.append_assoc]
  | network => rw [render, render, hjoin, List.append_assoc]

theorem shape_render {kind : Kind} {names : List Text} (h : ∀ name ∈ names, Plain name)
    (hk : kind = .empty → names = []) : Shape (render kind names) := by
  rcases List.eq_nil_or_concat names with rfl | ⟨init, name, rfl⟩
  · cases kind with
    | empty => exact .empty
    | relative => exact .here
    | absolute => exact .top
    | network => exact .network
  · rw [List.concat_eq_append] at h hk ⊢
    have hn : Plain name := h name (by simp)
    have hkind : kind ≠ .empty := fun he => by simpa using hk he
    by_cases hne : init = []
    · subst hne
      cases kind with
      | empty => exact absurd rfl hkind
      | relative =>
        have htext : render .relative ([] ++ [name]) = name := by simp [render, Text.joinWith]
        rw [htext]
        exact .bare hn
      | absolute =>
        have htext : render .absolute ([] ++ [name]) = [] ++ '/' :: name := by
          simp [render, Text.joinWith]
        rw [htext]
        exact .below hn fun he => absurd rfl he
      | network =>
        have htext : render .network ([] ++ [name]) = "/" ++ '/' :: name := by
          simp [render, Text.joinWith]
        rw [htext]
        exact .below hn fun _ => rfl
    · have hclean : clean (render kind init) = render kind init :=
        clean_render (fun n hm => h n (by simp [hm])) fun he => absurd he hkind
      rw [render_concat hkind hne]
      exact .below hn fun _ => hclean

theorem shape (p : Path) : Shape p.text := by
  obtain ⟨raw, he⟩ := p.cleaned
  rw [← he]
  exact shape_render (fun _ => plain_of_mem_componentsOf) componentsOf_of_kindOf_empty

theorem fileName?_of_bare {p : Path} (hn : Plain p.text) : p.fileName? = some p.text := by
  rw [fileName?, Text.cutLast_eq_none hn.2.2.2]
  exact if_neg (not_or.mpr ⟨hn.1, hn.2.1⟩)

theorem fileName?_of_below {p : Path} {head name : Text} (ht : p.text = head ++ '/' :: name)
    (hn : Plain name) : p.fileName? = some name := by
  rw [fileName?, ht, Text.cutLast_append hn.2.2.2]
  exact if_neg (not_or.mpr ⟨hn.1, hn.2.1⟩)

theorem parent?_of_below {p : Path} {head name : Text} (ht : p.text = head ++ '/' :: name)
    (hn : Plain name) : p.parent? = some (if head = [] then ofText "/" else ofText head) := by
  rw [parent?, ht, Text.cutLast_append hn.2.2.2]
  obtain ⟨c, rest, rfl⟩ := List.exists_cons_of_ne_nil hn.1
  cases head with
  | nil => rfl
  | cons => rfl

theorem parent?_of_bare {p : Path} (hn : Plain p.text) : p.parent? = none := by
  rw [parent?, Text.cutLast_eq_none hn.2.2.2]

/-- What a name in the directory of the path stands behind. -/
def above (p : Path) : Text :=
  match Text.cutLast '/' p.text with
  | some (head, _) => head ++ "/"
  | none => if p.text = "." then "./" else []

theorem above_of_below {p : Path} {head name : Text} (ht : p.text = head ++ '/' :: name)
    (hn : Plain name) : p.above = head ++ "/" := by
  rw [above, ht, Text.cutLast_append hn.2.2.2]

theorem above_of_bare {p : Path} (hn : Plain p.text) : p.above = [] := by
  rw [above, Text.cutLast_eq_none hn.2.2.2]
  exact if_neg hn.2.1

theorem above_nil_or (p : Path) : p.above = [] ∨ ∃ head, p.above = head ++ "/" := by
  unfold above
  split
  next head _ _ => exact .inr ⟨head, rfl⟩
  next =>
    split
    next => exact .inr ⟨".", rfl⟩
    next => exact .inl rfl

/-- A name that ends the path stands behind what is above it. -/
theorem text_of_fileName? {p : Path} {name : Text} (h : p.fileName? = some name) :
    Plain name ∧ p.text = p.above ++ name := by
  generalize ht : p.text = text
  have hs := p.shape
  rw [ht] at hs
  cases hs with
  | empty | here | top | network =>
    rw [fileName?, ht] at h
    simp [Text.cutLast] at h
  | bare hn =>
    subst ht
    rw [fileName?_of_bare hn] at h
    obtain rfl := Option.some.inj h
    exact ⟨hn, by rw [above_of_bare hn, List.nil_append]⟩
  | below hn =>
    rw [fileName?_of_below ht hn] at h
    obtain rfl := Option.some.inj h
    exact ⟨hn, by rw [above_of_below ht hn, List.append_assoc]; rfl⟩

theorem text_of_nameless {p : Path} (h : p.fileName? = none) :
    p.text = [] ∨ p.text = "." ∨ p.text = "/" ∨ p.text = "//" := by
  generalize ht : p.text = text
  have hs := p.shape
  rw [ht] at hs
  cases hs with
  | empty => exact .inl rfl
  | here => exact .inr (.inl rfl)
  | top => exact .inr (.inr (.inl rfl))
  | network => exact .inr (.inr (.inr rfl))
  | bare hn => simp [fileName?_of_bare (ht ▸ hn)] at h
  | below hn => simp [fileName?_of_below ht hn] at h

theorem fileName?_of_parent? {p q : Path} (h : p.parent? = some q) :
    (∃ name, p.fileName? = some name) ∨ p.text = "//" := by
  cases hname : p.fileName? with
  | some name => exact .inl ⟨name, rfl⟩
  | none =>
    obtain ht | ht | ht | ht := text_of_nameless hname
    · simp [parent?, ht, Text.cutLast] at h
    · simp [parent?, ht, Text.cutLast] at h
    · simp [parent?, ht, Text.cutLast] at h
    · exact .inr ht

end Path

end BlockSync
