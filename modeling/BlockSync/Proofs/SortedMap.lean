import BlockSync.SortedMap

/-! Look-ups in a sorted map. What a map holds is settled by its look-ups, so each operation is
described by what it does to them. -/

namespace BlockSync.SortedMap

variable {α β γ : Type} [Ord α]

@[simp]
theorem find?_empty (k : α) : (∅ : SortedMap α β).find? k = none := rfl

@[simp]
theorem entries_empty : (∅ : SortedMap α β).entries = [] := rfl

theorem contains_iff {m : SortedMap α β} {k : α} : m.contains k = true ↔ ∃ v, m.find? k = some v :=
  Option.isSome_iff_exists

theorem isEmpty_iff {m : SortedMap α β} : m.isEmpty = true ↔ m.entries = [] :=
  List.isEmpty_iff

theorem entries_insert_last [Std.TransOrd α] {m : SortedMap α β} {k : α} (v : β)
    (h : ∀ k' ∈ m.keys, compare k' k = .lt) : (m.insert k v).entries = m.entries ++ [(k, v)] := by
  obtain ⟨l, hl⟩ := m
  simp only [keys, List.mem_map, forall_exists_index, and_imp, forall_apply_eq_imp_iff₂] at h
  simp only [insert]
  clear hl
  induction l with
  | nil => rfl
  | cons e l ih =>
    have hk : compare k e.1 = .gt := Std.OrientedCmp.gt_of_lt (h e (by simp))
    simp only [place, hk, List.cons_append, ih fun x hx => h x (by simp [hx])]

theorem entries_foldl_insert [Std.TransOrd α] {m : SortedMap α β} {l : List (α × β)}
    (h : (m.entries ++ l).Pairwise fun a b => compare a.1 b.1 = .lt) :
    (l.foldl (fun m e => m.insert e.1 e.2) m).entries = m.entries ++ l := by
  induction l generalizing m with
  | nil => rw [List.foldl_nil, List.append_nil]
  | cons e l ih =>
    have hlast : (m.insert e.1 e.2).entries = m.entries ++ [e] := by
      refine entries_insert_last e.2 fun k hk => ?_
      obtain ⟨a, ha, rfl⟩ := List.mem_map.mp hk
      exact (List.pairwise_append.mp h).2.2 a ha e (by simp)
    have hsplit : m.entries ++ e :: l = (m.insert e.1 e.2).entries ++ l := by
      rw [hlast, List.append_assoc, List.singleton_append]
    rw [List.foldl_cons, hsplit]
    exact ih (hsplit ▸ h)

/-- A map is made up of its own entries. -/
theorem ofList_entries [Std.TransOrd α] (m : SortedMap α β) : ofList m.entries = m := by
  have he : (ofList m.entries).entries = m.entries :=
    entries_foldl_insert (m := ∅) m.sorted
  cases h : ofList m.entries
  cases m
  simp_all

theorem mem_entries_place [Std.TransOrd α] [Std.LawfulEqOrd α] {k k' : α} {v v' : β}
    {l : List (α × β)} (h : l.Pairwise (fun a b => compare a.1 b.1 = .lt)) :
    (k', v') ∈ place k v l ↔ k' = k ∧ v' = v ∨ k' ≠ k ∧ (k', v') ∈ l := by
  induction l with
  | nil => simp [place]
  | cons e l ih =>
    rw [List.pairwise_cons] at h
    simp only [place]
    split
    next hk =>
      have hne : ∀ x ∈ e :: l, k ≠ x.1 := by
        intro x hx he
        rcases List.mem_cons.mp hx with rfl | hx
        · simp [he] at hk
        · have := Std.TransCmp.lt_trans hk (h.1 x hx)
          simp [he] at this
      grind
    next hk =>
      have he := Std.LawfulEqOrd.eq_of_compare hk
      have hne : ∀ x ∈ l, k ≠ x.1 := by
        intro x hx hx'
        have := h.1 x hx
        simp [← he, hx'] at this
      grind
    next hk =>
      have hne : k ≠ e.1 := fun he => by simp [he] at hk
      have := ih h.2
      grind

variable [DecidableEq α] [Std.LawfulEqOrd α]

theorem find?_cons_eq {k : α} {e : α × β} {l : List (α × β)} :
    ((e :: l).find? fun e => compare k e.1 == .eq) =
      if k = e.1 then some e else l.find? fun e => compare k e.1 == .eq := by
  by_cases h : k = e.1
  · simp [h]
  · have hc : (compare k e.1 == .eq) = false := by
      simpa only [beq_eq_false_iff_ne, ne_eq, Std.LawfulEqOrd.compare_eq_iff_eq] using h
    simp only [List.find?_cons, hc, if_neg h]

theorem mem_entries_iff {m : SortedMap α β} {k : α} {v : β} :
    (k, v) ∈ m.entries ↔ m.find? k = some v := by
  obtain ⟨l, hl⟩ := m
  simp only [find?]
  induction l with
  | nil => simp
  | cons e l ih =>
    rw [List.pairwise_cons] at hl
    rw [find?_cons_eq, List.mem_cons]
    by_cases h : k = e.1
    · subst h
      have hn : (e.1, v) ∉ l := fun hm => by simpa using hl.1 _ hm
      simp only [hn, or_false, if_true, Option.map_some, Option.some.injEq]
      exact ⟨fun he => by rw [← he], fun he => by rw [← he]⟩
    · have hne : (k, v) ≠ e := fun he => h (congrArg Prod.fst he)
      simp only [hne, false_or, if_neg h, ih hl.2]

theorem mem_values_iff {m : SortedMap α β} {v : β} : v ∈ m.values ↔ ∃ k, m.find? k = some v := by
  simp only [values, List.mem_map, Prod.exists, exists_eq_right, mem_entries_iff]

theorem mem_keys_iff {m : SortedMap α β} {k : α} : k ∈ m.keys ↔ m.contains k = true := by
  rw [contains_iff, keys]
  simp only [List.mem_map, Prod.exists, exists_and_right, exists_eq_right, mem_entries_iff]

omit [DecidableEq α] [Std.LawfulEqOrd α] in
theorem keys_map (m : SortedMap α β) (f : α → β → γ) : (m.map f).keys = m.keys :=
  List.map_map

omit [DecidableEq α] in
theorem nodup_keys (m : SortedMap α β) : m.keys.Nodup := by
  have hne : m.entries.Pairwise fun a b => a.1 ≠ b.1 :=
    m.sorted.imp fun hlt he => by simp [he] at hlt
  exact List.pairwise_map.mpr hne

theorem find?_map (m : SortedMap α β) (f : α → β → γ) (k : α) :
    (m.map f).find? k = (m.find? k).map (f k) := by
  apply Option.ext
  intro v
  rw [← mem_entries_iff, map]
  simp only [List.mem_map, Prod.mk.injEq, Prod.exists, Option.map_eq_some_iff, mem_entries_iff]
  constructor
  · rintro ⟨k', v', hm, rfl, rfl⟩
    exact ⟨v', hm, rfl⟩
  · rintro ⟨v', hm, rfl⟩
    exact ⟨k, v', hm, rfl, rfl⟩

theorem find?_filter (m : SortedMap α β) (p : α → β → Bool) (k : α) :
    (m.filter p).find? k = (m.find? k).filter (p k) := by
  apply Option.ext
  intro v
  rw [← mem_entries_iff, filter]
  simp only [List.mem_filter, mem_entries_iff, Option.filter_eq_some_iff]

theorem find?_erase (m : SortedMap α β) (k k' : α) :
    (m.erase k).find? k' = if k' = k then none else m.find? k' := by
  rw [erase, find?_filter]
  by_cases h : k' = k
  · simp [h]
  · have hc : (compare k k' != .eq) = true := by
      simpa only [bne_iff_ne, ne_eq, Std.LawfulEqOrd.compare_eq_iff_eq] using Ne.symm h
    cases m.find? k' <;> simp [h, hc]

variable [Std.TransOrd α]

theorem ext_find? {m n : SortedMap α β} (h : ∀ k, m.find? k = n.find? k) : m = n := by
  have hp : m.entries.Perm n.entries := by
    refine (List.perm_ext_iff_of_nodup ?_ ?_).mpr ?_
    · exact m.sorted.imp fun hab he => by simp [he] at hab
    · exact n.sorted.imp fun hab he => by simp [he] at hab
    · rintro ⟨k, v⟩
      rw [mem_entries_iff, mem_entries_iff, h]
  have he : m.entries = n.entries :=
    hp.eq_of_pairwise (fun a b _ _ hab hba => by
      simp [Std.OrientedCmp.gt_of_lt hba] at hab) m.sorted n.sorted
  cases m
  cases n
  simpa using he

theorem keys_ext {m : SortedMap α β} {n : SortedMap α γ}
    (h : ∀ k, m.contains k = n.contains k) : m.keys = n.keys := by
  have hmap : m.map (fun _ _ => ()) = n.map fun _ _ => () := by
    refine ext_find? fun k => ?_
    have hk : (m.find? k).isSome = (n.find? k).isSome := h k
    rw [find?_map, find?_map]
    cases hm : m.find? k with
    | none =>
      have hn : n.find? k = none := by simpa [hm] using hk
      rw [hn]
      rfl
    | some v =>
      obtain ⟨w, hw⟩ : ∃ w, n.find? k = some w := by simpa [hm, Option.isSome_iff_exists] using hk.symm
      rw [hw]
      rfl
  rw [← keys_map m fun _ _ => (), hmap, keys_map]

theorem find?_insert (m : SortedMap α β) (k k' : α) (v : β) :
    (m.insert k v).find? k' = if k' = k then some v else m.find? k' := by
  apply Option.ext
  intro v'
  rw [← mem_entries_iff, insert, mem_entries_place m.sorted, mem_entries_iff]
  by_cases h : k' = k
  · simp [h, eq_comm]
  · simp [h]

@[simp]
theorem find?_insert_self (m : SortedMap α β) (k : α) (v : β) :
    (m.insert k v).find? k = some v := by
  simp [find?_insert]

theorem find?_insert_of_ne (m : SortedMap α β) {k k' : α} (v : β) (h : k' ≠ k) :
    (m.insert k v).find? k' = m.find? k' := by
  simp [find?_insert, h]

theorem contains_insert (m : SortedMap α β) (k k' : α) (v : β) :
    (m.insert k v).contains k' = true ↔ k' = k ∨ m.contains k' = true := by
  simp only [contains, find?_insert]
  by_cases h : k' = k <;> simp [h]

end BlockSync.SortedMap
