import BlockSync.Proofs.Path.Shape
import Mathlib.Data.List.Induction

/-! Text glued below a path. The way from a path down to another one gives the other one back when
it is glued below, and cleaning what was glued goes through the components one by one. -/

namespace BlockSync.Path

/-- The text below the path, before it is cleaned. -/
def below (p : Path) (segment : Text) : Text :=
  if p.text.getLast? = some '/' then p.text ++ segment else p.text ++ '/' :: segment

theorem length_below (p : Path) (segment : Text) :
    p.text.length + segment.length ≤ (p.below segment).length := by
  unfold below
  split
  · simp
  · simp

theorem below_injective {p : Path} {segment segment' : Text}
    (h : p.below segment = p.below segment') : segment = segment' := by
  unfold below at h
  split at h
  · exact List.append_cancel_left h
  · exact (List.cons.inj (List.append_cancel_left h)).2

theorem relativeTo?_eq_some {p base : Path} {rest : Text} (h : p.relativeTo? base = some rest) :
    p = base ∧ rest = [] ∨ p ≠ base ∧ p.text = base.below rest := by
  unfold relativeTo? at h
  split at h
  next he => exact .inl ⟨eq_of_text he, (Option.some.inj h).symm⟩
  next hne =>
    refine .inr ⟨fun he => hne (he ▸ rfl), ?_⟩
    split at h
    next => simp at h
    next more hafter =>
      have htext := Text.after?_eq_some.mp hafter
      unfold below
      split at h
      next hlast => rw [if_pos hlast, htext, Option.some.inj h]
      next hlast =>
        rw [if_neg hlast]
        split at h
        next rest' => rw [htext, Option.some.inj h]
        next => simp at h

theorem componentsOf_append_slash (head segment : Text) :
    componentsOf (head ++ '/' :: segment) =
      (segment.splitOn '/').foldl push (componentsOf head) := by
  rw [componentsOf, List.splitOn_append_cons_self, List.foldl_append]
  rfl

theorem componentsOf_below (p : Path) (segment : Text) :
    componentsOf (p.below segment) = (segment.splitOn '/').foldl push (componentsOf p.text) := by
  unfold below
  split
  next hlast =>
    obtain ⟨head, hhead⟩ := List.getLast?_eq_some_iff.mp hlast
    have hnone : componentsOf (head ++ '/' :: []) = componentsOf head := by
      rw [componentsOf_append_slash]
      rfl
    rw [hhead, hnone, List.append_assoc, ← componentsOf_append_slash]
    rfl
  next => rw [componentsOf_append_slash]

theorem exists_push_append (stack own : List Text) (part : Text) :
    ∃ kept, kept <+: stack ∧ push (stack ++ own) part = kept ++ push own part := by
  unfold push
  split
  next => exact ⟨stack, List.prefix_rfl, rfl⟩
  next =>
    split
    next =>
      by_cases hown : own = []
      · exact ⟨stack.dropLast, List.dropLast_prefix stack, by simp [hown]⟩
      · exact ⟨stack, List.prefix_rfl, List.dropLast_append_of_ne_nil hown⟩
    next => exact ⟨stack, List.prefix_rfl, List.append_assoc ..⟩

/-- Components that are put on others take some of these away and then put their own ones there. -/
theorem exists_foldl_push (parts stack : List Text) :
    ∃ kept, kept <+: stack ∧ parts.foldl push stack = kept ++ parts.foldl push [] := by
  induction parts using List.reverseRecOn with
  | nil => exact ⟨stack, List.prefix_rfl, by simp⟩
  | append_singleton parts part ih =>
    obtain ⟨kept, hkept, hfold⟩ := ih
    obtain ⟨kept', hkept', hpush⟩ := exists_push_append kept (parts.foldl push []) part
    refine ⟨kept', hkept'.trans hkept, ?_⟩
    rw [List.foldl_concat, List.foldl_concat, hfold, hpush]

theorem kindOf_clean (raw : Text) : kindOf (clean raw) = kindOf raw :=
  kindOf_render (fun _ => plain_of_mem_componentsOf) componentsOf_of_kindOf_empty

theorem componentsOf_clean (raw : Text) : componentsOf (clean raw) = componentsOf raw :=
  componentsOf_render fun _ => plain_of_mem_componentsOf

theorem kindOf_of_head {raw : Text} (h : raw.head? = some '/') :
    kindOf raw = .absolute ∨ kindOf raw = .network := by
  obtain ⟨rest, rfl⟩ := List.head?_eq_some_iff.mp h
  unfold kindOf
  split <;> simp_all

theorem render_of_relative {names : List Text} (h : names ≠ []) :
    render .relative names = Text.joinWith "/" names := by
  cases names with
  | nil => exact absurd rfl h
  | cons => rfl

/-- A clean text that does not start at the top is its components. -/
theorem joinWith_componentsOf {raw : Text} (h : clean raw = raw) (hhead : raw.head? ≠ some '/')
    (hne : componentsOf raw ≠ []) : Text.joinWith "/" (componentsOf raw) = raw := by
  have hkind : kindOf raw = .empty ∨ kindOf raw = .relative := by
    unfold kindOf
    split <;> simp_all
  unfold clean at h
  rcases hkind with hk | hk
  · rw [hk] at h
    exact h
  · rw [hk, render_of_relative hne] at h
    exact h

/-- Joining goes on from the path, unless there is no component to go on by. -/
theorem join_cases {p : Path} (hne : p.text ≠ []) (segment : Text) :
    (p.join segment = p ∧ (slashes segment).head? ≠ some '/' ∧
        componentsOf (slashes segment) = []) ∨
      (p.join segment).text = clean (p.below (slashes segment)) := by
  unfold join
  dsimp only
  split
  next h =>
    refine .inl ⟨rfl, fun hhead => ?_, ?_⟩
    · have hkind := kindOf_of_head hhead
      rw [← kindOf_clean] at hkind
      rcases h with h | h
      · simp [h, kindOf] at hkind
      · simp [h, kindOf] at hkind
    · rw [← componentsOf_clean]
      rcases h with h | h
      · rw [h]; rfl
      · rw [h]; rfl
  next =>
    have hslashes : ∀ t, '\\' ∉ t → (ofText t).text = clean t :=
      fun t ht => congrArg clean (slashes_eq_self ht)
    have hp := p.not_mem_text
    have hs := not_mem_slashes segment
    rw [below]
    split
    next => exact .inr (hslashes _ (by simp [hp, hs]))
    next => exact .inr (hslashes _ (by simp [hp, hs]))

theorem head_joinWith {names : List Text} (h : ∀ name ∈ names, Plain name) :
    (Text.joinWith "/" names).head? ≠ some '/' := by
  intro hj
  obtain ⟨c, rest, ht⟩ := List.exists_cons_of_ne_nil (List.ne_nil_of_mem (List.mem_of_mem_head? hj))
  rw [ht] at hj
  exact head_joinWith_ne h ht (by simpa using hj)

theorem getLast?_joinWith {names : List Text} (h : ∀ name ∈ names, Plain name) :
    (Text.joinWith "/" names).getLast? ≠ some '/' := by
  intro hj
  obtain ⟨head, ht⟩ := List.getLast?_eq_some_iff.mp hj
  have hne : names ≠ [] := by
    rintro rfl
    simp [Text.joinWith, List.intercalate] at hj
  have hsplit := splitOn_joinWith h hne
  rw [ht, List.splitOn_append_cons_self] at hsplit
  exact (h [] (hsplit ▸ by simp)).1 rfl

/-- A path that does not depend on where one is. -/
def Rooted (p : Path) : Prop :=
  p.text.head? = some '/'

instance (p : Path) : Decidable p.Rooted :=
  inferInstanceAs (Decidable (_ = _))

theorem Rooted.exists_render {p : Path} (h : p.Rooted) :
    ∃ kind names, (kind = .absolute ∨ kind = .network) ∧ (∀ name ∈ names, Plain name) ∧
      p.text = render kind names := by
  obtain ⟨raw, he⟩ := p.cleaned
  have hplain : ∀ name ∈ componentsOf (slashes raw), Plain name :=
    fun _ hm => plain_of_mem_componentsOf hm
  refine ⟨kindOf (slashes raw), componentsOf (slashes raw), ?_, hplain, he.symm⟩
  have hhead : (clean (slashes raw)).head? = some '/' := he ▸ h
  rw [clean] at hhead
  generalize componentsOf (slashes raw) = names at hhead hplain
  cases hk : kindOf (slashes raw) with
  | absolute => exact .inl rfl
  | network => exact .inr rfl
  | empty =>
    rw [hk] at hhead
    exact absurd hhead (head_joinWith hplain)
  | relative =>
    rw [hk] at hhead
    cases names with
    | nil => simp [render] at hhead
    | cons name names => exact absurd hhead (head_joinWith hplain)

section Rooted

variable {p : Path} {kind : Kind} {names : List Text}
  (hk : kind = .absolute ∨ kind = .network) (hn : ∀ name ∈ names, Plain name)
  (hp : p.text = render kind names)

include hk

theorem kindOf_lead {t : Text} (ht : t.head? ≠ some '/') : kindOf (render kind [] ++ t) = kind := by
  have hhead : ∀ c rest, t = c :: rest → c ≠ '/' := by
    rintro c rest rfl rfl
    simp at ht
  rcases hk with rfl | rfl
  · exact kindOf_slash hhead
  · exact kindOf_slashes hhead

theorem render_lead (names : List Text) :
    render kind names = render kind [] ++ Text.joinWith "/" names := by
  rcases hk with rfl | rfl
  · rfl
  · rfl

include hn hp

theorem below_render (segment : Text) :
    p.below segment = render kind [] ++
      if names = [] then segment else Text.joinWith "/" names ++ '/' :: segment := by
  by_cases hne : names = []
  · subst hne
    have hlast : p.text.getLast? = some '/' := by
      rcases hk with rfl | rfl
      · rw [hp]; rfl
      · rw [hp]; rfl
    rw [below, if_pos hlast, if_pos rfl, hp]
  · have hjoin : Text.joinWith "/" names ≠ [] := fun he => hne (joinWith_eq_nil hn he)
    have hlast : p.text.getLast? ≠ some '/' := by
      rw [hp, render_lead hk, List.getLast?_append_of_ne_nil _ hjoin]
      exact getLast?_joinWith hn
    rw [below, if_neg hlast, if_neg hne, hp, render_lead hk, List.append_assoc]

theorem kindOf_below {segment : Text} (hs : names = [] → segment.head? ≠ some '/') :
    kindOf (p.below segment) = kind := by
  rw [below_render hk hn hp]
  refine kindOf_lead hk ?_
  split
  next he => exact hs he
  next hne =>
    obtain ⟨c, rest, ht⟩ := List.exists_cons_of_ne_nil fun he => hne (joinWith_eq_nil hn he)
    have hhead := head_joinWith hn
    rw [ht] at hhead ⊢
    exact hhead

/-- Plain names below a rooted path are clean. -/
theorem clean_below_joinWith {more : List Text} (hm : ∀ name ∈ more, Plain name) (hne : more ≠ []) :
    clean (p.below (Text.joinWith "/" more)) = p.below (Text.joinWith "/" more) := by
  have htext : p.below (Text.joinWith "/" more) = render kind (names ++ more) := by
    rw [below_render hk hn hp, render_lead hk (names ++ more)]
    split
    next he => rw [he, List.nil_append]
    next he => rw [Text.joinWith_append he hne]; rfl
  rw [htext]
  refine clean_render (fun name hname => ?_) fun he => ?_
  · rcases List.mem_append.mp hname with h | h
    · exact hn name h
    · exact hm name h
  · rcases hk with rfl | rfl <;> simp at he

theorem length_render_le {kept : List Text} (h : kept <+: names) :
    (render kind kept).length ≤ p.text.length := by
  obtain ⟨more, rfl⟩ := h
  rw [hp, render_lead hk, render_lead hk (kept ++ more), List.length_append, List.length_append]
  by_cases hkept : kept = []
  · subst hkept
    simp [Text.joinWith, List.intercalate]
  by_cases hmore : more = []
  · simp [hmore]
  · rw [Text.joinWith_append hkept hmore, List.length_append]
    omega

/-- Text without a component of its own leads to nothing that lies below. -/
theorem clean_below_ne {segment rest : Text} (hs : segment.head? ≠ some '/')
    (hc : componentsOf segment = []) (hr : rest ≠ []) : clean (p.below segment) ≠ p.below rest := by
  obtain ⟨kept, hkept, hfold⟩ := exists_foldl_push (segment.splitOn '/') (componentsOf p.text)
  have hcomponents : componentsOf p.text = names := hp ▸ componentsOf_render hn
  have hnone : (segment.splitOn '/').foldl push [] = [] := hc
  rw [clean, kindOf_below hk hn hp fun _ => hs, componentsOf_below, hfold, hnone, List.append_nil]
  rw [hcomponents] at hkept
  have hshort := length_render_le hk hn hp hkept
  have hlong := length_below p rest
  have hpos := List.length_pos_iff.mpr hr
  intro he
  rw [he] at hshort
  omega

end Rooted

end BlockSync.Path
