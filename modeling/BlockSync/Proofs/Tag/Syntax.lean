import BlockSync.Tag.Syntax
import BlockSync.Proofs.Text
import BlockSync.Proofs.Text.Words
import Mathlib.Data.List.Find

/-! The grammar of declarations. A line is a declaration exactly if it can be cut into an
indentation, a comment start, the keyword with an id and the words behind it; putting other words
in gives a declaration again. -/

namespace BlockSync

namespace Tag

open Text (Piece Blank Solid)

theorem Syntax.mem_insert {comment c : Text} {comments : List Text} :
    c ∈ Syntax.insert comment comments ↔ c = comment ∨ c ∈ comments := by
  induction comments with
  | nil => simp [Syntax.insert]
  | cons other rest ih =>
    rw [Syntax.insert]
    split
    next he => simp [he]
    next =>
      split
      next => simp
      next =>
        simp only [List.mem_cons, ih]
        exact or_left_comm

theorem Syntax.mem_arrange {comments : List Text} {c : Text} :
    c ∈ Syntax.arrange comments ↔ c ∈ comments ∧ c ≠ [] := by
  have hf : ∀ l : List Text, c ∈ l.foldr Syntax.insert [] ↔ c ∈ l := by
    intro l
    induction l with
    | nil => simp
    | cons x l ih => simp [Syntax.mem_insert, ih]
  rw [Syntax.arrange, hf]
  simp

/-- A declaration cut into its parts. -/
structure Parts where
  indent : Text
  comment : Text
  gap : Text
  id : Text
  checksum : Option Piece
  target : Piece
  closing : Option Piece
  blanks : Text

namespace Parts

def words (p : Parts) : List Piece :=
  p.checksum.toList ++ [p.target]

def pieces (p : Parts) : List Piece :=
  p.words ++ p.closing.toList

def lead (p : Parts) : Text :=
  p.indent ++ p.comment ++ p.gap

def tail (p : Parts) : Text :=
  p.pieces.flatMap Piece.text ++ p.blanks

/-- What stands behind the indentation, up to the words. -/
def stem (p : Parts) : Text :=
  p.comment ++ p.gap ++ startKeyword ++ p.id

def text (p : Parts) : Text :=
  p.indent ++ (p.stem ++ p.tail)

def tag (p : Parts) : Start where
  lead := p.lead
  comment := p.comment
  id := p.id
  checksum := p.checksum.map Piece.word
  target := p.target.word
  targetOffset := (p.lead ++ startKeyword ++ p.id ++
    (p.checksum.elim [] Piece.text ++ p.target.gap)).byteLength
  trail := (p.closing.map Piece.text).getD [] ++ p.blanks
  commentEnd := p.closing.map Piece.word

/-- The parts with another checksum and target. -/
def rewritten (p : Parts) (checksum target : Text) : Parts :=
  { p with
    checksum := if checksum = [] then none else some ⟨" ", checksum⟩
    target := ⟨" ", target⟩ }

theorem text_eq (p : Parts) :
    p.text = p.lead ++ startKeyword ++ p.id ++ (p.checksum.toList.flatMap Piece.text ++ p.target.gap) ++
      (p.target.word ++ p.tag.trail) := by
  cases hcl : p.closing <;> simp [text, stem, tail, pieces, words, lead, tag, Piece.text, hcl]

theorem text_rewritten (p : Parts) (checksum target : Text) :
    (p.rewritten checksum target).text = p.tag.render checksum target := by
  rw [text_eq]
  by_cases hc : checksum = [] <;>
    simp [rewritten, tag, lead, Start.render, Piece.text, hc]

/-- The parts with a new target and the old one as the end of the comment. -/
def shifted (p : Parts) (target closing : Text) : Parts :=
  { p with checksum := none, target := ⟨" ", target⟩, closing := some ⟨" ", closing⟩ }

theorem text_shifted {p : Parts} {checksum target : Text} (hclosing : p.closing = none)
    (hne : checksum ≠ []) : (p.shifted checksum target).text = p.tag.render checksum target := by
  rw [text_eq]
  simp [shifted, tag, lead, Start.render, Piece.text, hclosing, hne]

/-- The words behind the keyword are those of a declaration. -/
structure Worded (p : Parts) : Prop where
  id : isId p.id = true
  solid : Solid p.id
  proper : ∀ x ∈ p.pieces, x.Proper
  closing : ∀ c ∈ p.closing, isCommentEnd c.word = true
  target : p.closing = none → p.checksum ≠ none → isCommentEnd p.target.word = false
  blanks : Blank p.blanks

/-- The parts are those of a declaration. -/
structure Fit (s : TagSyntax) (p : Parts) : Prop extends Worded p where
  indent : Blank p.indent
  head : ∀ c ∈ p.comment.head?, Text.isBlank c = false
  comment : s.comments.find? (·.isPrefixOf (p.stem ++ p.tail)) = some p.comment
  gap : Blank p.gap

end Parts

end Tag

namespace TagSyntax

open Tag
open Text (Piece Blank Solid)

variable {s : TagSyntax}

theorem splitId_append {id tail : Text} (hi : Solid id)
    (ht : ∀ c ∈ tail.head?, Text.isBlank c = true) : splitId (id ++ tail) = (id, tail) := by
  have hid : ∀ c ∈ id, (!Text.isBlank c) = true := fun c hc => by simp [hi c hc]
  have htail : ∀ c ∈ tail.head?, (!Text.isBlank c) = false := fun c hc => by simp [ht c hc]
  rw [splitId, Text.takeWhile_append_of_head hid htail, Text.dropWhile_append_of_head hid htail]

theorem splitCommentEnd_pieces {p : Parts} (h : p.Worded) :
    splitCommentEnd p.pieces = (p.words, p.closing) := by
  unfold splitCommentEnd Parts.pieces Parts.words
  cases hcl : p.closing with
  | some c => simp [h.closing c hcl]
  | none =>
    cases hch : p.checksum with
    | none => simp
    | some x => simp [h.target hcl (by simp [hch])]

theorem splitCommentEnd_spec (pieces : List Piece) :
    pieces = (splitCommentEnd pieces).1 ++ (splitCommentEnd pieces).2.toList ∧
      (∀ c ∈ (splitCommentEnd pieces).2, isCommentEnd c.word = true) ∧
      ((splitCommentEnd pieces).2 = none → 2 ≤ pieces.length →
        ∀ x ∈ pieces.getLast?, isCommentEnd x.word = false) := by
  unfold splitCommentEnd
  split
  next last hl =>
    split
    next hc =>
      obtain ⟨front, rfl⟩ := List.getLast?_eq_some_iff.mp hl
      exact ⟨by simp, by simpa using hc.2, by simp⟩
    next hc =>
      refine ⟨by simp, by simp, fun _ hlen x hx => ?_⟩
      obtain rfl : last = x := Option.some.inj (hl.symm.trans hx)
      simpa [hlen] using hc
  next hn => exact ⟨by simp, by simp, by simp [List.getLast?_eq_none_iff.mp hn]⟩

theorem ne_nil_of_mem_comments {comment : Text} (h : comment ∈ s.comments) : comment ≠ [] := by
  obtain ⟨given, hg⟩ := s.arranged
  rw [← hg, Syntax.mem_arrange] at h
  exact h.2

theorem startLine_of_worded {p : Parts} (h : p.Worded) :
    startLine p.lead p.comment (p.id ++ p.tail) = .start p.tag := by
  have htail : ∀ c ∈ p.tail.head?, Text.isBlank c = true :=
    fun _ hc => Text.head_pieces h.proper h.blanks hc
  have hpieces : p.tail.pieces = (p.pieces, p.blanks) := Text.pieces_append h.proper h.blanks
  have hid : p.id ≠ [] := by
    intro he
    have := h.id
    simp [he, isId] at this
  rw [startLine, splitId_append h.solid htail]
  simp only [hid, if_false, h.id, Bool.not_true, Bool.false_eq_true, hpieces,
    splitCommentEnd_pieces h]
  unfold Parts.words Parts.tag
  cases p.checksum <;> rfl

theorem startKeyword_eq : startKeyword = 's' :: ("ync-start:" : Text) := rfl

theorem classify_of_fit {p : Parts} (h : p.Fit s) : s.classify p.text = .start p.tag := by
  have hne := ne_nil_of_mem_comments (List.mem_of_find?_eq_some h.comment)
  have hhead : ∀ c ∈ (p.stem ++ p.tail).head?, Text.isBlank c = false := by
    obtain ⟨c, rest, hc⟩ := List.exists_cons_of_ne_nil hne
    have := h.head
    simpa [Parts.stem, hc] using this
  have hkey : ∀ c ∈ (startKeyword ++ (p.id ++ p.tail)).head?, Text.isBlank c = false := by
    intro c hc
    rw [startKeyword_eq, List.cons_append, List.head?_cons, Option.mem_some] at hc
    rw [← hc]
    decide
  have hrest : (p.stem ++ p.tail).drop p.comment.length =
      p.gap ++ (startKeyword ++ (p.id ++ p.tail)) := by
    simp [Parts.stem]
  rw [classify, Parts.text, Text.takeWhile_append_of_head h.indent hhead,
    Text.dropWhile_append_of_head h.indent hhead, h.comment]
  dsimp only
  rw [hrest, Text.takeWhile_append_of_head h.gap hkey, Text.dropWhile_append_of_head h.gap hkey,
    Text.after?_eq_some.mpr rfl]
  exact startLine_of_worded h.toWorded

theorem exists_worded {indent comment gap rest : Text} {tag : Start}
    (h : startLine (indent ++ comment ++ gap) comment rest = .start tag) :
    ∃ p : Parts, p.Worded ∧ p.indent = indent ∧ p.comment = comment ∧ p.gap = gap ∧
      rest = p.id ++ p.tail ∧ tag = p.tag := by
  unfold startLine at h
  have hsolid : Solid (rest.takeWhile (!Text.isBlank ·)) := Text.solid_takeWhile rest
  have hhead : ∀ c ∈ (rest.dropWhile (!Text.isBlank ·)).head?, Text.isBlank c = true :=
    fun c hc => by simpa using Text.head_dropWhile hc
  have hrest : rest = rest.takeWhile (!Text.isBlank ·) ++ rest.dropWhile (!Text.isBlank ·) :=
    List.takeWhile_append_dropWhile.symm
  rw [splitId] at h
  generalize rest.takeWhile (!Text.isBlank ·) = id at *
  generalize rest.dropWhile (!Text.isBlank ·) = tail at *
  dsimp only at h
  split at h
  next => simp at h
  next =>
    split at h
    next => simp at h
    next hid =>
      have hid' : isId id = true := by simpa using hid
      obtain ⟨htail, hproper, hblanks⟩ := Text.pieces_spec rfl hhead
      obtain ⟨hsplit, hclosing, hopen⟩ := splitCommentEnd_spec (Text.pieces tail).1
      generalize (Text.pieces tail).1 = pieces at *
      generalize (Text.pieces tail).2 = blanks at *
      generalize (splitCommentEnd pieces).2 = closing at *
      split at h
      next => simp at h
      next target hw =>
        rw [hw] at hsplit
        rw [hsplit] at hproper
        refine ⟨⟨indent, comment, gap, id, none, target, closing, blanks⟩,
          ⟨hid', hsolid, hproper, hclosing, by simp, hblanks⟩, rfl, rfl, rfl, ?_,
          (Line.start.inj h).symm⟩
        rw [hrest, htail, hsplit]
        rfl
      next checksum target hw =>
        rw [hw] at hsplit
        rw [hsplit] at hproper
        refine ⟨⟨indent, comment, gap, id, some checksum, target, closing, blanks⟩,
          ⟨hid', hsolid, hproper, hclosing, fun hn _ => ?_, hblanks⟩, rfl, rfl, rfl, ?_,
          (Line.start.inj h).symm⟩
        · have hpair : pieces = [checksum, target] := by simpa [show closing = none from hn] using hsplit
          exact hopen hn (by simp [hpair]) target (by simp [hpair])
        · rw [hrest, htail, hsplit]
          rfl
      next => simp at h

theorem exists_fit {line : Text} {tag : Start} (h : s.classify line = .start tag) :
    ∃ p : Parts, p.Fit s ∧ line = p.text ∧ tag = p.tag := by
  have hindent : Blank (line.takeWhile Text.isBlank) := Text.blank_takeWhile line
  have hhead : ∀ c ∈ (line.dropWhile Text.isBlank).head?, Text.isBlank c = false :=
    fun c hc => Text.head_dropWhile hc
  have hline : line = line.takeWhile Text.isBlank ++ line.dropWhile Text.isBlank :=
    List.takeWhile_append_dropWhile.symm
  unfold classify at h
  generalize line.takeWhile Text.isBlank = indent at *
  generalize line.dropWhile Text.isBlank = trimmed at *
  dsimp only at h
  split at h
  next => simp at h
  next comment hfind =>
    have hfound := List.find?_some hfind
    obtain ⟨rest, rfl⟩ := List.isPrefixOf_iff_prefix.mp hfound
    have hgap : Blank (rest.takeWhile Text.isBlank) := Text.blank_takeWhile rest
    have hrest : rest = rest.takeWhile Text.isBlank ++ rest.dropWhile Text.isBlank :=
      List.takeWhile_append_dropWhile.symm
    rw [List.drop_left] at h
    generalize rest.takeWhile Text.isBlank = gap at *
    generalize rest.dropWhile Text.isBlank = body at *
    split at h
    next words hwords =>
      obtain ⟨p, hp, rfl, rfl, rfl, rfl, rfl⟩ := exists_worded h
      have hstem : p.comment ++ rest = p.stem ++ p.tail := by
        rw [hrest, Text.after?_eq_some.mp hwords]
        simp [Parts.stem]
      refine ⟨p, ⟨hp, hindent, ?_, hstem ▸ hfind, hgap⟩, ?_, rfl⟩
      · intro c hc
        obtain ⟨x, more, hx⟩ := List.exists_cons_of_ne_nil
          (ne_nil_of_mem_comments (List.mem_of_find?_eq_some hfind))
        exact hhead c (by simpa [hx] using hc)
      · rw [hline, hstem]
        rfl
    next =>
      split at h
      next words _ =>
        unfold endLine at h
        grind
      next => simp at h

/-- No comment start has a blank in it. -/
def Plain (s : TagSyntax) : Prop :=
  ∀ comment ∈ s.comments, Solid comment

instance (s : TagSyntax) : Decidable s.Plain :=
  inferInstanceAs (Decidable (∀ comment ∈ s.comments, Solid comment))

theorem isPrefixOf_append_blank {comment front rest : Text} (hc : Solid comment)
    (hr : rest ≠ []) (hb : ∀ c ∈ rest.head?, Text.isBlank c = true) :
    comment.isPrefixOf (front ++ rest) = comment.isPrefixOf front := by
  induction comment generalizing front with
  | nil => simp
  | cons c comment ih =>
    have hmore : Solid comment := fun x hx => hc x (by simp [hx])
    cases front with
    | nil =>
      obtain ⟨b, more, rfl⟩ := List.exists_cons_of_ne_nil hr
      have hne : c ≠ b := by
        rintro rfl
        exact Bool.false_ne_true ((hc c (by simp)).symm.trans (hb c rfl))
      simp [List.isPrefixOf, hne]
    | cons x front => simp [List.isPrefixOf, ih hmore]

/-- Other words keep a declaration a declaration. -/
theorem fit_of_worded (hs : s.Plain) {p q : Parts} (h : p.Fit s) (hq : q.Worded)
    (hindent : q.indent = p.indent) (hcomment : q.comment = p.comment) (hgap : q.gap = p.gap)
    (hid : q.id = p.id) : q.Fit s := by
  have htail : ∀ {q : Parts}, q.Worded → s.comments.find? (·.isPrefixOf (q.stem ++ q.tail)) =
      s.comments.find? (·.isPrefixOf q.stem) := by
    intro q hq
    have hqne : q.tail ≠ [] := by
      have := (hq.proper q.target (by simp [Parts.pieces, Parts.words])).word_ne_nil
      simp [Parts.tail, Parts.pieces, Parts.words, Piece.text, this]
    exact List.find?_congr fun comment hm =>
      isPrefixOf_append_blank (hs comment hm) hqne fun _ => Text.head_pieces hq.proper hq.blanks
  have hstem : q.stem = p.stem := by rw [Parts.stem, Parts.stem, hcomment, hgap, hid]
  refine ⟨hq, hindent ▸ h.indent, hcomment ▸ h.head, ?_, hgap ▸ h.gap⟩
  rw [htail hq, hstem, hcomment]
  exact (htail h.toWorded).symm.trans h.comment

theorem fit_rewritten (hs : s.Plain) {p : Parts} (h : p.Fit s) {checksum target : Text}
    (hc : Solid checksum) (hne : target ≠ []) (ht : Solid target)
    (hend : p.closing = none → checksum ≠ [] → isCommentEnd target = false) :
    (p.rewritten checksum target).Fit s := by
  have hproper : ∀ x ∈ (p.rewritten checksum target).pieces, x.Proper := by
    intro x hx
    simp only [Parts.pieces, Parts.words, Parts.rewritten, List.mem_append, List.mem_singleton] at hx
    rcases hx with (hx | rfl) | hx
    · split at hx
      next => simp at hx
      next hcne =>
        obtain rfl : x = ⟨" ", checksum⟩ := by simpa using hx
        exact Text.Piece.proper_of_word hcne hc
    · exact Text.Piece.proper_of_word hne ht
    · exact h.proper x (List.mem_append_right _ hx)
  have hworded : (p.rewritten checksum target).Worded := by
    refine ⟨h.id, h.solid, hproper, h.closing, fun hn hsome => hend hn ?_, h.blanks⟩
    rintro rfl
    exact hsome rfl
  exact fit_of_worded hs h hworded rfl rfl rfl rfl

/-- A checksum in front of a target that looks like the end of a comment is read as the target. -/
theorem fit_shifted (hs : s.Plain) {p : Parts} (h : p.Fit s) {checksum target : Text}
    (hcne : checksum ≠ []) (hc : Solid checksum) (hne : target ≠ []) (ht : Solid target)
    (hend : isCommentEnd target = true) : (p.shifted checksum target).Fit s := by
  have hproper : ∀ x ∈ (p.shifted checksum target).pieces, x.Proper := by
    intro x hx
    have hx' : x = ⟨" ", checksum⟩ ∨ x = ⟨" ", target⟩ := by
      simpa [Parts.pieces, Parts.words, Parts.shifted] using hx
    rcases hx' with rfl | rfl
    · exact Text.Piece.proper_of_word hcne hc
    · exact Text.Piece.proper_of_word hne ht
  have hclosing : ∀ c ∈ (p.shifted checksum target).closing, isCommentEnd c.word = true := by
    intro c hm
    obtain rfl : (⟨" ", target⟩ : Piece) = c := Option.some.inj hm
    exact hend
  have hworded : (p.shifted checksum target).Worded :=
    ⟨h.id, h.solid, hproper, hclosing, nofun, h.blanks⟩
  exact fit_of_worded hs h hworded rfl rfl rfl rfl

/-- Writing another checksum and target into a declaration gives the declaration with these. -/
theorem classify_render (hs : s.Plain) {line : Text} {tag : Start}
    (h : s.classify line = .start tag) {checksum target : Text} (hc : Solid checksum)
    (hne : target ≠ []) (ht : Solid target)
    (hend : tag.commentEnd = none → checksum ≠ [] → isCommentEnd target = false) :
    ∃ tag', s.classify (tag.render checksum target) = .start tag' ∧ tag'.id = tag.id ∧
      tag'.style = tag.style ∧ tag'.target = target ∧
      tag'.checksum = if checksum = [] then none else some checksum := by
  obtain ⟨p, hp, rfl, rfl⟩ := exists_fit h
  have hfit : (p.rewritten checksum target).Fit s :=
    fit_rewritten hs hp hc hne ht fun hn => hend (by simp [Parts.tag, hn])
  rw [← Parts.text_rewritten]
  refine ⟨_, classify_of_fit hfit, rfl, rfl, rfl, ?_⟩
  by_cases he : checksum = [] <;> simp [Parts.tag, Parts.rewritten, he]

theorem solid_target {line : Text} {tag : Start} (h : s.classify line = .start tag) :
    tag.target ≠ [] ∧ Solid tag.target := by
  obtain ⟨p, hp, -, rfl⟩ := exists_fit h
  have hx := hp.proper p.target (by simp [Parts.pieces, Parts.words])
  exact ⟨hx.word_ne_nil, hx.solid⟩

/-- Whatever checksum is written into a declaration, it stays a declaration of its id. -/
theorem classify_render_start (hs : s.Plain) {line : Text} {tag : Start}
    (h : s.classify line = .start tag) {checksum : Text} (hc : Solid checksum) :
    ∃ tag', s.classify (tag.render checksum tag.target) = .start tag' ∧ tag'.id = tag.id ∧
      tag'.lead = tag.lead ∧ tag'.comment = tag.comment := by
  obtain ⟨hne, ht⟩ := solid_target h
  obtain ⟨p, hp, rfl, rfl⟩ := exists_fit h
  by_cases hend : p.closing = none ∧ checksum ≠ [] ∧ isCommentEnd p.tag.target = true
  · obtain ⟨hclosing, hcne, hend⟩ := hend
    have hfit := fit_shifted hs hp hcne hc hne ht hend
    rw [← Parts.text_shifted hclosing hcne]
    exact ⟨_, classify_of_fit hfit, rfl, rfl, rfl⟩
  · have hfit : (p.rewritten checksum p.tag.target).Fit s := by
      refine fit_rewritten hs hp hc hne ht fun hclosing hcne => ?_
      exact Bool.eq_false_iff.mpr fun he => hend ⟨hclosing, hcne, he⟩
    rw [← Parts.text_rewritten]
    exact ⟨_, classify_of_fit hfit, rfl, rfl, rfl⟩

theorem mem_target {line : Text} {tag : Start} (h : s.classify line = .start tag) {c : Char}
    (hc : c ∈ tag.target) : c ∈ line := by
  obtain ⟨p, -, rfl, rfl⟩ := exists_fit h
  rw [p.text_eq]
  exact List.mem_append_right _ (List.mem_append_left _ hc)

theorem mem_render {line : Text} {tag : Start} (h : s.classify line = .start tag)
    {checksum target : Text} {c : Char} (hc : c ∈ tag.render checksum target) :
    c ∈ line ∨ c ∈ checksum ∨ c ∈ target ∨ c = ' ' := by
  obtain ⟨p, -, rfl, rfl⟩ := exists_fit h
  rw [p.text_eq]
  have hgap : c ∈ (if checksum = [] then [] else ' ' :: checksum) → c ∈ checksum ∨ c = ' ' := by
    intro hm
    split at hm
    next => simp at hm
    next => simpa [or_comm] using hm
  simp only [Start.render, Parts.tag, List.mem_append, List.mem_cons] at hc ⊢
  tauto

theorem getLast?_render {line : Text} {tag : Start} (h : s.classify line = .start tag)
    (checksum : Text) : (tag.render checksum tag.target).getLast? = line.getLast? := by
  obtain ⟨p, -, rfl, rfl⟩ := exists_fit h
  have hne : p.target.word ++ p.tag.trail ≠ [] :=
    List.append_ne_nil_of_left_ne_nil (solid_target h).1 _
  rw [← Parts.text_rewritten, Parts.text_eq, p.text_eq, List.getLast?_append_of_ne_nil _ hne]
  exact List.getLast?_append_of_ne_nil _ hne

end TagSyntax

end BlockSync
