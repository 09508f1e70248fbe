import BlockSync.Path

/-! Clean paths. A path is told by its kind and its components, each of them a plain name, and
cleaning a path again changes nothing. -/

namespace BlockSync

theorem Text.not_mem_of_mem_splitOn {mark : Char} {t part : Text} (h : part ∈ t.splitOn mark) :
    mark ∉ part := by
  induction t generalizing part with
  | nil => simp_all
  | cons c t ih =>
    rw [List.splitOn_cons_eq_if_modifyHead] at h
    split at h
    next =>
      rcases List.mem_cons.mp h with rfl | h
      · simp
      · exact ih h
    next hc =>
      obtain ⟨first, more, he⟩ := List.exists_cons_of_ne_nil (List.splitOn_ne_nil mark t)
      rw [he] at h ih
      rcases List.mem_cons.mp h with rfl | h
      · have hf := ih (List.mem_cons_self ..)
        simp only [List.mem_cons, not_or]
        exact ⟨fun hm => hc (by simp [hm]), hf⟩
      · exact ih (List.mem_cons_of_mem _ h)

theorem Text.mem_joinWith {separator part : Text} {parts : List Text} (h : part ∈ parts) {c : Char}
    (hc : c ∈ part) : c ∈ Text.joinWith separator parts := by
  induction parts with
  | nil => simp at h
  | cons first more ih =>
    cases more with
    | nil => simpa [Text.joinWith, List.mem_singleton.mp h] using hc
    | cons second more =>
      rw [Text.joinWith, List.intercalate_cons_cons]
      rcases List.mem_cons.mp h with rfl | h
      · simp [hc]
      · exact List.mem_append_right _ (ih h)

theorem Text.mem_or_of_mem_joinWith {separator : Text} {parts : List Text} {c : Char}
    (hc : c ∈ Text.joinWith separator parts) : c ∈ separator ∨ ∃ part ∈ parts, c ∈ part := by
  induction parts with
  | nil => simp [Text.joinWith, List.intercalate] at hc
  | cons first more ih =>
    cases more with
    | nil => exact .inr ⟨first, by simp, by simpa [Text.joinWith] using hc⟩
    | cons second more =>
      rw [Text.joinWith, List.intercalate_cons_cons, List.append_assoc] at hc
      rcases List.mem_append.mp hc with hc | hc
      · exact .inr ⟨first, by simp, hc⟩
      · rcases List.mem_append.mp hc with hc | hc
        · exact .inl hc
        · exact (ih hc).imp_right fun ⟨part, hp, hc⟩ => ⟨part, List.mem_cons_of_mem _ hp, hc⟩

namespace Path

/-- A name that stands for itself in a path. -/
def Plain (name : Text) : Prop :=
  name ≠ [] ∧ name ≠ "." ∧ name ≠ ".." ∧ '/' ∉ name

instance (name : Text) : Decidable (Plain name) :=
  inferInstanceAs (Decidable (_ ∧ _))

theorem push_plain {name : Text} (h : Plain name) (stack : List Text) :
    push stack name = stack ++ [name] := by
  simp only [push, h.1, h.2.1, h.2.2.1, or_self, if_false]

theorem foldl_push_plain {names : List Text} (h : ∀ name ∈ names, Plain name)
    (stack : List Text) : names.foldl push stack = stack ++ names := by
  induction names generalizing stack with
  | nil => simp
  | cons name names ih =>
    rw [List.foldl_cons, push_plain (h name (by simp)), ih fun n hn => h n (by simp [hn])]
    simp

theorem plain_of_mem_push {stack : List Text} {component : Text}
    (hs : ∀ name ∈ stack, Plain name) (hc : '/' ∉ component) {name : Text}
    (h : name ∈ push stack component) : Plain name := by
  unfold push at h
  split at h
  next => exact hs name h
  next he =>
    split at h
    next => exact hs name (List.dropLast_subset _ h)
    next hd =>
      rcases List.mem_append.mp h with h | h
      · exact hs name h
      · obtain rfl := List.mem_singleton.mp h
        exact ⟨fun hn => he (.inl hn), fun hn => he (.inr hn), hd, hc⟩

theorem plain_of_mem_foldl_push {parts stack : List Text}
    (hs : ∀ name ∈ stack, Plain name) (hp : ∀ part ∈ parts, '/' ∉ part) {name : Text}
    (h : name ∈ parts.foldl push stack) : Plain name := by
  induction parts generalizing stack with
  | nil => exact hs name h
  | cons part parts ih =>
    exact ih (fun n hn => plain_of_mem_push hs (hp part (by simp)) hn)
      (fun q hq => hp q (by simp [hq])) h

theorem plain_of_mem_componentsOf {raw name : Text} (h : name ∈ componentsOf raw) : Plain name :=
  plain_of_mem_foldl_push (by simp) (fun _ hp => Text.not_mem_of_mem_splitOn hp) h

theorem mem_of_mem_foldl_push {parts stack : List Text} {name : Text}
    (h : name ∈ parts.foldl push stack) : name ∈ stack ∨ name ∈ parts := by
  induction parts generalizing stack with
  | nil => exact .inl h
  | cons part parts ih =>
    rcases ih h with h | h
    · unfold push at h
      split at h
      next => exact .inl h
      next =>
        split at h
        next => exact .inl (List.dropLast_subset _ h)
        next =>
          rcases List.mem_append.mp h with h | h
          · exact .inl h
          · exact .inr (by simp [List.mem_singleton.mp h])
    · exact .inr (List.mem_cons_of_mem _ h)

theorem mem_of_mem_componentsOf {raw name : Text} (h : name ∈ componentsOf raw) {c : Char}
    (hc : c ∈ name) : c ∈ raw := by
  rcases mem_of_mem_foldl_push h with h | h
  · simp at h
  · have hj : c ∈ Text.joinWith "/" (raw.splitOn '/') := Text.mem_joinWith h hc
    rwa [Text.joinWith, show (("/" : Text)) = ['/'] from rfl, List.intercalate_splitOn] at hj

theorem joinWith_eq_nil {names : List Text} (h : ∀ name ∈ names, Plain name)
    (he : Text.joinWith "/" names = []) : names = [] := by
  cases names with
  | nil => rfl
  | cons name names =>
    have hn := (h name (by simp)).1
    cases names with
    | nil => simp [Text.joinWith, List.intercalate, hn] at he
    | cons other names =>
      simp [Text.joinWith, List.intercalate_cons_cons, hn] at he

theorem head_joinWith_ne {names : List Text} (h : ∀ name ∈ names, Plain name) {c : Char}
    {rest : Text} (he : Text.joinWith "/" names = c :: rest) : c ≠ '/' := by
  cases names with
  | nil => simp [Text.joinWith, List.intercalate] at he
  | cons name names =>
    obtain ⟨a, t, rfl⟩ := List.exists_cons_of_ne_nil (h name (by simp)).1
    have ha : a = c := by
      cases names with
      | nil =>
        simp [Text.joinWith, List.intercalate] at he
        exact he.1
      | cons other names =>
        simp [Text.joinWith, List.intercalate_cons_cons] at he
        exact he.1
    subst ha
    rintro rfl
    exact (h _ (List.mem_cons_self ..)).2.2.2 (List.mem_cons_self ..)

theorem splitOn_joinWith {names : List Text} (h : ∀ name ∈ names, Plain name) (hn : names ≠ []) :
    (Text.joinWith "/" names).splitOn '/' = names :=
  List.splitOn_intercalate '/' (fun name hm => (h name hm).2.2.2) hn

theorem componentsOf_joinWith {names : List Text} (h : ∀ name ∈ names, Plain name) :
    componentsOf (Text.joinWith "/" names) = names := by
  by_cases hn : names = []
  · subst hn
    rfl
  · rw [componentsOf, splitOn_joinWith h hn, foldl_push_plain h, List.nil_append]

theorem componentsOf_slash (raw : Text) : componentsOf ('/' :: raw) = componentsOf raw := by
  have hs : ('/' :: raw : Text).splitOn '/' = [] :: raw.splitOn '/' :=
    List.splitOn_append_cons_self [] raw
  rw [componentsOf, hs, List.foldl_cons]
  rfl

theorem componentsOf_render {kind : Kind} {names : List Text} (h : ∀ name ∈ names, Plain name) :
    componentsOf (render kind names) = names := by
  cases kind with
  | network => exact (componentsOf_slash _).trans ((componentsOf_slash _).trans (componentsOf_joinWith h))
  | absolute => exact (componentsOf_slash _).trans (componentsOf_joinWith h)
  | empty =>
    cases names with
    | nil => rfl
    | cons name names => exact componentsOf_joinWith h
  | relative =>
    cases names with
    | nil => rfl
    | cons name names => exact componentsOf_joinWith h

theorem kindOf_cons {c : Char} (rest : Text) (h : c ≠ '/') : kindOf (c :: rest) = .relative := by
  simp [kindOf, h]

theorem kindOf_slash {t : Text} (h : ∀ c rest, t = c :: rest → c ≠ '/') :
    kindOf ('/' :: t) = .absolute := by
  cases t with
  | nil => rfl
  | cons c rest => simp [kindOf, h c rest rfl]

theorem kindOf_slashes {t : Text} (h : ∀ c rest, t = c :: rest → c ≠ '/') :
    kindOf ('/' :: '/' :: t) = .network := by
  cases t with
  | nil => rfl
  | cons c rest => simp [kindOf, h c rest rfl]

theorem kindOf_render {kind : Kind} {names : List Text} (h : ∀ name ∈ names, Plain name)
    (he : kind = .empty → names = []) : kindOf (render kind names) = kind := by
  have hh : ∀ c rest, Text.joinWith "/" names = c :: rest → c ≠ '/' :=
    fun _ _ => head_joinWith_ne h
  cases kind with
  | network => exact kindOf_slashes hh
  | absolute => exact kindOf_slash hh
  | empty => rw [he rfl]; rfl
  | relative =>
    cases names with
    | nil => rfl
    | cons name names =>
      obtain ⟨c, rest, hj⟩ := List.exists_cons_of_ne_nil
        (fun hj => List.cons_ne_nil _ _ (joinWith_eq_nil h hj))
      have hr : render .relative (name :: names) = c :: rest := hj
      rw [hr]
      exact kindOf_cons rest (hh c rest hj)

theorem componentsOf_of_kindOf_empty {raw : Text} (h : kindOf raw = .empty) :
    componentsOf raw = [] := by
  cases raw with
  | nil => rfl
  | cons c raw =>
    by_cases hc : c = '/'
    · subst hc
      unfold kindOf at h
      split at h <;> simp_all
    · simp [kindOf_cons raw hc] at h

theorem clean_render {kind : Kind} {names : List Text} (h : ∀ name ∈ names, Plain name)
    (he : kind = .empty → names = []) : clean (render kind names) = render kind names := by
  rw [clean, kindOf_render h he, componentsOf_render h]

theorem clean_clean (raw : Text) : clean (clean raw) = clean raw :=
  clean_render (fun _ hn => plain_of_mem_componentsOf hn) componentsOf_of_kindOf_empty

theorem not_mem_slashes (raw : Text) : '\\' ∉ slashes raw := by
  simp only [slashes, List.mem_map, not_exists, not_and]
  intro c _
  split
  · simp
  · assumption

theorem slashes_eq_self {raw : Text} (h : '\\' ∉ raw) : slashes raw = raw := by
  refine (List.map_congr_left fun c hc => ?_).trans (List.map_id raw)
  exact if_neg (show c ≠ '\\' from fun he => h (he ▸ hc))

theorem mem_render {kind : Kind} {names : List Text} {c : Char} (hc : c ∈ render kind names) :
    c = '/' ∨ c = '.' ∨ ∃ name ∈ names, c ∈ name := by
  have hj : c ∈ Text.joinWith "/" names → c = '/' ∨ ∃ name ∈ names, c ∈ name :=
    fun h => (Text.mem_or_of_mem_joinWith h).imp_left fun h => by simpa using h
  cases kind with
  | network =>
    have hc : c = '/' ∨ c = '/' ∨ c ∈ Text.joinWith "/" names := by simpa [render] using hc
    grind
  | absolute =>
    have hc : c = '/' ∨ c ∈ Text.joinWith "/" names := by simpa [render] using hc
    grind
  | empty => exact (hj (by simpa [render] using hc)).imp_right .inr
  | relative =>
    cases names with
    | nil => exact .inr (.inl (by simpa [render] using hc))
    | cons name names => exact (hj (by simpa [render] using hc)).imp_right .inr

theorem not_mem_text (p : Path) : '\\' ∉ p.text := by
  obtain ⟨raw, he⟩ := p.cleaned
  rw [← he]
  intro hm
  rcases mem_render hm with h | h | ⟨name, hn, hc⟩
  · simp at h
  · simp at h
  · exact not_mem_slashes raw (mem_of_mem_componentsOf hn hc)

theorem eq_of_text {p q : Path} (h : p.text = q.text) : p = q := by
  cases p
  cases q
  simpa using h

@[simp]
theorem ofText_text (p : Path) : ofText p.text = p := by
  apply eq_of_text
  obtain ⟨raw, he⟩ := p.cleaned
  show clean (slashes p.text) = p.text
  rw [slashes_eq_self p.not_mem_text, ← he, clean_clean]

end Path

end BlockSync
