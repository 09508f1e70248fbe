import BlockSync.Text
import Mathlib.Data.List.TakeWhile

/-! Text as words with the blanks before them. Taking a text apart and putting the words together
again are inverse to each other. -/

namespace BlockSync.Text

variable {p : Char → Bool} {t u : Text}

theorem takeWhile_append_of_head (ht : ∀ c ∈ t, p c = true) (hu : ∀ c ∈ u.head?, p c = false) :
    (t ++ u).takeWhile p = t := by
  rw [List.takeWhile_append_of_pos ht]
  cases u with
  | nil => simp
  | cons c u => simp [hu c rfl]

theorem dropWhile_append_of_head (ht : ∀ c ∈ t, p c = true) (hu : ∀ c ∈ u.head?, p c = false) :
    (t ++ u).dropWhile p = u := by
  rw [List.dropWhile_append_of_pos ht]
  cases u with
  | nil => rfl
  | cons c u => simp [hu c rfl]

theorem head_dropWhile {c : Char} (h : c ∈ (t.dropWhile p).head?) : p c = false := by
  have hh := List.head?_dropWhile_not p t
  rw [Option.mem_def.mp h] at hh
  simpa using hh

def Blank (t : Text) : Prop :=
  ∀ c ∈ t, isBlank c = true

def Solid (t : Text) : Prop :=
  ∀ c ∈ t, isBlank c = false

instance (t : Text) : Decidable (Blank t) :=
  List.decidableBAll (isBlank · = true) t

instance (t : Text) : Decidable (Solid t) :=
  List.decidableBAll (isBlank · = false) t

theorem blank_takeWhile (t : Text) : Blank (t.takeWhile isBlank) :=
  fun _ h => List.mem_takeWhile_imp h

theorem solid_takeWhile (t : Text) : Solid (t.takeWhile (!isBlank ·)) :=
  fun _ h => by simpa using List.mem_takeWhile_imp h

/-- A word that is set off from what stands before it. -/
structure Piece.Proper (x : Piece) : Prop where
  gap_ne_nil : x.gap ≠ []
  blank : Blank x.gap
  word_ne_nil : x.word ≠ []
  solid : Solid x.word

theorem Piece.proper_of_word {word : Text} (hne : word ≠ []) (h : Solid word) :
    Piece.Proper ⟨" ", word⟩ :=
  ⟨by simp, fun c hc => by rw [List.mem_singleton.mp hc]; decide, hne, h⟩

theorem Piece.Proper.head_text {x : Piece} (h : x.Proper) {c : Char} (hc : c ∈ x.text.head?) :
    isBlank c = true := by
  obtain ⟨b, gap, hb⟩ := List.exists_cons_of_ne_nil h.gap_ne_nil
  have hcb : b = c := by simpa [Piece.text, hb] using hc
  exact hcb ▸ h.blank b (by simp [hb])

theorem head_pieces {words : List Piece} {blanks : Text} (hw : ∀ x ∈ words, x.Proper)
    (hb : Blank blanks) {c : Char} (hc : c ∈ (words.flatMap Piece.text ++ blanks).head?) :
    isBlank c = true := by
  cases words with
  | nil => exact hb c (List.mem_of_mem_head? (by simpa using hc))
  | cons x words =>
    have hx := hw x (by simp)
    refine hx.head_text (c := c) ?_
    obtain ⟨b, gap, hg⟩ := List.exists_cons_of_ne_nil hx.gap_ne_nil
    simpa [Piece.text, hg] using hc

theorem pieces_of_blank (h : Blank t) : pieces t = ([], t) := by
  have hd : t.dropWhile isBlank = [] := List.dropWhile_eq_nil_iff.mpr h
  rw [pieces]
  split
  next => rfl
  next c rest he => simp [hd] at he

theorem pieces_of_word {gap word rest : Text} (hg : Blank gap) (hne : word ≠ []) (hw : Solid word)
    (hr : ∀ c ∈ rest.head?, isBlank c = true) :
    pieces (gap ++ (word ++ rest)) = (⟨gap, word⟩ :: (pieces rest).1, (pieces rest).2) := by
  obtain ⟨c, more, rfl⟩ := List.exists_cons_of_ne_nil hne
  have hc : isBlank c = false := hw c (by simp)
  have hmore : ∀ x ∈ more, (!isBlank x) = true := fun x hx => by simp [hw x (by simp [hx])]
  have hhead : ∀ x ∈ (c :: more ++ rest).head?, isBlank x = false := by simpa using hc
  have hrest : ∀ x ∈ rest.head?, (!isBlank x) = false := fun x hx => by simp [hr x hx]
  have hd := dropWhile_append_of_head hg hhead
  rw [pieces]
  split
  next he => exact absurd (hd.symm.trans he) (by simp)
  next c' rest' he =>
    rw [hd, List.cons_append] at he
    obtain ⟨rfl, rfl⟩ := List.cons.inj he
    rw [takeWhile_append_of_head hg hhead, takeWhile_append_of_head hmore hrest,
      dropWhile_append_of_head hmore hrest]

/-- Words put together are taken apart again. -/
theorem pieces_append {words : List Piece} {blanks : Text} (hw : ∀ x ∈ words, x.Proper)
    (hb : Blank blanks) : pieces (words.flatMap Piece.text ++ blanks) = (words, blanks) := by
  induction words with
  | nil => exact pieces_of_blank hb
  | cons x words ih =>
    have hx := hw x (by simp)
    have hmore : ∀ y ∈ words, y.Proper := fun y hy => hw y (by simp [hy])
    rw [List.flatMap_cons, Piece.text, List.append_assoc, List.append_assoc,
      pieces_of_word hx.blank hx.word_ne_nil hx.solid fun _ => head_pieces hmore hb, ih hmore]

theorem pieces_spec {words : List Piece} {blanks : Text} (h : pieces t = (words, blanks))
    (ht : ∀ c ∈ t.head?, isBlank c = true) :
    t = words.flatMap Piece.text ++ blanks ∧ (∀ x ∈ words, x.Proper) ∧ Blank blanks := by
  induction t using pieces.induct generalizing words blanks with
  | case1 t he =>
    rw [pieces_of_blank (List.dropWhile_eq_nil_iff.mp he)] at h
    obtain ⟨rfl, rfl⟩ := Prod.mk.inj h
    exact ⟨rfl, by simp, List.dropWhile_eq_nil_iff.mp he⟩
  | case2 t c rest he ih =>
    have hc : isBlank c = false := head_dropWhile (t := t) (p := isBlank) (by simp [he])
    have hword : Solid (c :: rest.takeWhile (!isBlank ·)) := fun x hx => by
      rcases List.mem_cons.mp hx with rfl | hx
      · exact hc
      · exact solid_takeWhile rest x hx
    have hrest : ∀ x ∈ (rest.dropWhile (!isBlank ·)).head?, isBlank x = true := fun x hx => by
      simpa using head_dropWhile hx
    have hsplit : t = t.takeWhile isBlank ++ (c :: rest.takeWhile (!isBlank ·) ++
        rest.dropWhile (!isBlank ·)) := by
      rw [List.cons_append, List.takeWhile_append_dropWhile, ← he, List.takeWhile_append_dropWhile]
    have hgap : t.takeWhile isBlank ≠ [] := by
      intro hg
      rw [hg, List.nil_append, List.cons_append] at hsplit
      have := ht c (by rw [hsplit]; rfl)
      simp [hc] at this
    rw [hsplit, pieces_of_word (blank_takeWhile t) (by simp) hword hrest] at h
    obtain ⟨rfl, rfl⟩ := Prod.mk.inj h
    obtain ⟨hm, hproper, hblanks⟩ := ih rfl hrest
    refine ⟨hsplit.trans ?_, fun x hx => ?_, hblanks⟩
    · rw [List.flatMap_cons, List.append_assoc, ← hm]
      simp [Piece.text]
    · rcases List.mem_cons.mp hx with rfl | hx
      · exact ⟨hgap, blank_takeWhile t, by simp, hword⟩
      · exact hproper x hx

end BlockSync.Text
