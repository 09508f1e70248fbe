import BlockSync.Cache.Scan
import BlockSync.Proofs.Disk.Canonical
import BlockSync.Proofs.Text

/-! The way from a file up to its root. The directories above a path without links spell the places
above its own, so the root lies above the file and the way down from it is told. -/

namespace BlockSync

namespace Disk

/-- The names of a place, each behind a slash. -/
def slashed (names : Place) : Text :=
  names.flatMap ('/' :: ·)

theorem slashed_append (names more : Place) : slashed (names ++ more) = slashed names ++ slashed more :=
  List.flatMap_append

theorem placeText_eq_slashed {place : Place} (h : place ≠ []) : placeText place = slashed place := by
  induction place with
  | nil => exact absurd rfl h
  | cons name place ih =>
    cases place with
    | nil => simp [placeText, slashed, Text.joinWith, List.intercalate]
    | cons other place =>
      have hh := ih (by simp)
      have hs : slashed (name :: other :: place) = '/' :: name ++ slashed (other :: place) := rfl
      rw [hs, ← hh]
      simp [placeText, Text.joinWith, List.intercalate_cons_cons]

/-- The path that spells a place. -/
def pathOf (place : Place) : Path :=
  .ofText (placeText place)

def Spelled (place : Place) : Prop :=
  ∀ name ∈ place, Path.Plain name ∧ '\\' ∉ name

theorem WellFormed.spelled {d : Disk} (hd : d.WellFormed) {place : Place} {e : Entry}
    (he : d.entry? place = some e) : Spelled place :=
  fun _ hn => ⟨(hd.plain_of_entry he hn).1, (hd.plain_of_entry he hn).2.1⟩

theorem Spelled.text_pathOf {place : Place} (h : Spelled place) :
    (pathOf place).text = placeText place :=
  ofText_placeText h

theorem Spelled.left {place more : Place} (h : Spelled (place ++ more)) : Spelled place :=
  fun name hn => h name (List.mem_append_left _ hn)

theorem parent?_pathOf_nil : (pathOf []).parent? = none := by decide

theorem Spelled.cutLast_pathOf {place : Place} {name : Text} (h : Spelled (place ++ [name])) :
    Text.cutLast '/' (pathOf (place ++ [name])).text = some (slashed place, name) := by
  have ht : (pathOf (place ++ [name])).text = slashed place ++ '/' :: name := by
    rw [h.text_pathOf, placeText_eq_slashed (by simp), slashed_append]
    simp [slashed]
  rw [ht, Text.cutLast_append (h name (by simp)).1.2.2.2]

theorem Spelled.parent?_pathOf {place : Place} {name : Text} (h : Spelled (place ++ [name])) :
    (pathOf (place ++ [name])).parent? = some (pathOf place) := by
  have hn := (h name (by simp)).1
  rw [Path.parent?, h.cutLast_pathOf]
  by_cases hp : place = []
  · subst hp
    cases hname : name with
    | nil => exact absurd hname hn.1
    | cons c rest => rfl
  · rw [pathOf, placeText_eq_slashed hp]
    cases place with
    | nil => exact absurd rfl hp
    | cons other place => rfl

theorem Spelled.mem_climb {place : Place} (h : Spelled place) {n : Nat} {q : Path}
    (hq : q ∈ Path.ancestors.climb n (pathOf place)) :
    ∃ above more, place = above ++ more ∧ q = pathOf above := by
  induction n generalizing place with
  | zero => simp [Path.ancestors.climb] at hq
  | succ n ih =>
    rcases List.eq_nil_or_concat place with rfl | ⟨above, name, rfl⟩
    · simp [Path.ancestors.climb, parent?_pathOf_nil] at hq
    · rw [List.concat_eq_append] at h hq ⊢
      simp only [Path.ancestors.climb, h.parent?_pathOf, List.mem_cons] at hq
      rcases hq with rfl | hq
      · exact ⟨above, [name], rfl, rfl⟩
      · obtain ⟨top, more, rfl, rfl⟩ := ih h.left hq
        exact ⟨top, more ++ [name], by simp, rfl⟩

/-- The root of a file spells a place above the file's. -/
theorem Spelled.findRoot {place : Place} (h : Spelled place) (hne : place ≠ []) (d : Disk)
    (marker : Text) :
    ∃ above more, place = above ++ more ∧ more ≠ [] ∧
      Scan.findRoot d (pathOf place) marker = pathOf above := by
  obtain ⟨dir, name, rfl⟩ := (List.eq_nil_or_concat place).resolve_left hne
  rw [List.concat_eq_append] at h ⊢
  have hmem : Scan.findRoot d (pathOf (dir ++ [name])) marker ∈
      pathOf dir :: (pathOf dir).ancestors := by
    simp only [Scan.findRoot, h.parent?_pathOf, Option.getD_some]
    cases hf : (pathOf dir :: (pathOf dir).ancestors).find? fun p => d.present (p.join marker) with
    | none => simp
    | some q => simpa using List.mem_of_find?_eq_some hf
  rcases List.mem_cons.mp hmem with he | hm
  · exact ⟨dir, [name], rfl, by simp, he⟩
  · obtain ⟨above, more, rfl, he⟩ := h.left.mem_climb hm
    exact ⟨above, more ++ [name], by simp, by simp, he⟩

theorem Spelled.relativeTo?_pathOf {above more : Place} (h : Spelled (above ++ more))
    (hm : more ≠ []) :
    ∃ relative, (pathOf (above ++ more)).relativeTo? (pathOf above) = some relative := by
  have hne : (pathOf (above ++ more)).text ≠ (pathOf above).text := by
    rw [h.text_pathOf, h.left.text_pathOf]
    intro he
    have := placeText_injective (fun name hn => (h name hn).1) (fun name hn => (h.left name hn).1) he
    simp [hm] at this
  unfold Path.relativeTo?
  rw [if_neg hne, h.text_pathOf, h.left.text_pathOf]
  by_cases ha : above = []
  · subst ha
    exact ⟨Text.joinWith "/" more, by simp [placeText, Text.after?, Text.joinWith, List.isPrefixOf?]⟩
  · obtain ⟨name, rest, rfl⟩ := List.exists_cons_of_ne_nil hm
    have hs : slashed (name :: rest) = '/' :: (name ++ slashed rest) := rfl
    have hafter : Text.after? (slashed above) (slashed above ++ slashed (name :: rest)) =
        some (slashed (name :: rest)) :=
      Text.after?_eq_some.mpr rfl
    rw [placeText_eq_slashed ha, placeText_eq_slashed (by simp), slashed_append, hafter, hs]
    dsimp only
    split
    next => exact ⟨_, rfl⟩
    next => exact ⟨_, rfl⟩

end Disk

end BlockSync
