import BlockSync.Proofs.Tag.Syntax

/-! The comment start of a line. Sorting by length makes the first match the longest one, so which
one it is depends on no more than which comment starts are given. -/

namespace BlockSync

namespace Text

/-- Of two beginnings of one text the one with more bytes is the longer one. -/
theorem length_le_of_byteLength_le {t u text : Text} (ht : t <+: text) (hu : u <+: text)
    (h : t.byteLength ≤ u.byteLength) : t.length ≤ u.length := by
  by_contra hlt
  obtain ⟨more, rfl⟩ := List.prefix_of_prefix_length_le hu ht (by omega)
  have hne : more ≠ [] := by
    rintro rfl
    simp at hlt
  have hpos := byteLength_pos hne
  rw [byteLength_append] at h
  omega

end Text

namespace Tag

/-- The longest of the given comment starts that the text begins with. -/
structure Longest (given : List Text) (text comment : Text) : Prop where
  mem : comment ∈ given
  ne_nil : comment ≠ []
  starts : comment <+: text
  length_le : ∀ other ∈ given, other <+: text → other.length ≤ comment.length

variable {given : List Text} {text comment : Text}

theorem Longest.unique {other : Text} (h : Longest given text comment)
    (h' : Longest given text other) : comment = other := by
  have hle := h'.length_le comment h.mem h.starts
  have hge := h.length_le other h'.mem h'.starts
  have hp := List.prefix_of_prefix_length_le h.starts h'.starts hle
  exact hp.eq_of_length (by omega)

theorem Longest.congr {given' : List Text} (hg : ∀ c, c ≠ [] → (c ∈ given' ↔ c ∈ given))
    (h : Longest given text comment) : Longest given' text comment := by
  refine ⟨(hg comment h.ne_nil).mpr h.mem, h.ne_nil, h.starts, fun other hm hp => ?_⟩
  by_cases ho : other = []
  · simp [ho]
  · exact h.length_le other ((hg other ho).mp hm) hp

namespace Syntax

theorem byteLength_le_of_comes {a b : Text} (h : comes a b = true) :
    b.byteLength ≤ a.byteLength := by
  simp only [comes, Bool.or_eq_true, decide_eq_true_eq, Bool.and_eq_true, beq_iff_eq] at h
  omega

theorem byteLength_le_of_not_comes {a b : Text} (h : ¬ comes a b = true) :
    a.byteLength ≤ b.byteLength := by
  simp only [comes, Bool.or_eq_true, decide_eq_true_eq, not_or] at h
  omega

def Descending (comments : List Text) : Prop :=
  comments.Pairwise fun a b => b.byteLength ≤ a.byteLength

theorem descending_insert {comments : List Text} (h : Descending comments) (comment : Text) :
    Descending (insert comment comments) := by
  induction comments with
  | nil => simp [insert, Descending]
  | cons other rest ih =>
    obtain ⟨hother, hrest⟩ := List.pairwise_cons.mp h
    rw [insert]
    split
    next => exact h
    next =>
      split
      next hc =>
        have hle := byteLength_le_of_comes hc
        refine List.pairwise_cons.mpr ⟨fun x hx => ?_, h⟩
        rcases List.mem_cons.mp hx with rfl | hx
        · exact hle
        · exact (hother x hx).trans hle
      next hc =>
        have hle := byteLength_le_of_not_comes hc
        refine List.pairwise_cons.mpr ⟨fun x hx => ?_, ih hrest⟩
        rcases mem_insert.mp hx with rfl | hx
        · exact hle
        · exact hother x hx

theorem descending_arrange (given : List Text) : Descending (arrange given) := by
  unfold arrange
  induction given.filter (! ·.isEmpty) with
  | nil => exact .nil
  | cons comment comments ih => exact descending_insert ih comment

theorem longest_of_find? (h : (arrange given).find? (·.isPrefixOf text) = some comment) :
    Longest given text comment := by
  obtain ⟨hp, front, back, hsplit, hfront⟩ := List.find?_eq_some_iff_append.mp h
  have hstarts : comment <+: text := List.isPrefixOf_iff_prefix.mp hp
  obtain ⟨hmem, hne⟩ := mem_arrange.mp (List.mem_of_find?_eq_some h)
  refine ⟨hmem, hne, hstarts, fun other hother hstart => ?_⟩
  by_cases ho : other = []
  · simp [ho]
  have hm : other ∈ front ++ comment :: back := hsplit ▸ mem_arrange.mpr ⟨hother, ho⟩
  have hdescending : Descending (front ++ comment :: back) := hsplit ▸ descending_arrange given
  rcases List.mem_append.mp hm with hm | hm
  · have hnot := hfront other hm
    rw [List.isPrefixOf_iff_prefix.mpr hstart] at hnot
    simp at hnot
  · rcases List.mem_cons.mp hm with rfl | hm
    · exact le_rfl
    · have hback := (List.pairwise_append.mp hdescending).2.1
      have hle := (List.pairwise_cons.mp hback).1 other hm
      exact Text.length_le_of_byteLength_le hstart hstarts hle

/-- The first comment start in the order of lengths that a text begins with is the longest. -/
theorem find?_arrange_eq_some :
    (arrange given).find? (·.isPrefixOf text) = some comment ↔ Longest given text comment := by
  refine ⟨longest_of_find?, fun h => ?_⟩
  have hm : comment ∈ arrange given := mem_arrange.mpr ⟨h.mem, h.ne_nil⟩
  have hp := List.isPrefixOf_iff_prefix.mpr h.starts
  cases hf : (arrange given).find? (·.isPrefixOf text) with
  | none => exact absurd hp (List.find?_eq_none.mp hf comment hm)
  | some other => rw [(longest_of_find? hf).unique h]

theorem find?_arrange_congr {given' : List Text} (hg : ∀ c, c ≠ [] → (c ∈ given' ↔ c ∈ given))
    (text : Text) :
    (arrange given').find? (·.isPrefixOf text) = (arrange given).find? (·.isPrefixOf text) := by
  apply Option.ext
  intro comment
  rw [find?_arrange_eq_some, find?_arrange_eq_some]
  exact ⟨Longest.congr fun c hc => (hg c hc).symm, Longest.congr hg⟩

end Syntax

end Tag

end BlockSync
