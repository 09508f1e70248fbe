import BlockSync.Proofs.Tag.Comment
import BlockSync.Proofs.Text.Utf8

/-! The grammar of lines. A line is a tag exactly if it can be cut into an indentation, the longest
comment start, a gap, a keyword and the words that belong behind it; there is only one such cut, and
the offset of the target is where its bytes begin. -/

namespace BlockSync

namespace Tag

open Text (Piece Blank Solid)
open Text.Utf8 (encode)

variable {given : List Text} {line indent comment gap body rest : Text}

/-- The line is an indentation, the longest comment start, a gap and `body`. -/
structure Led (given : List Text) (line indent comment gap body : Text) : Prop where
  line_eq : line = indent ++ (comment ++ (gap ++ body))
  indent : Blank indent
  comment : Longest given line.trimStart comment
  gap : Blank gap

/-- Behind the comment start and a gap stands the keyword. -/
def Keyed (given : List Text) (line keyword : Text) : Prop :=
  ∃ indent comment gap rest, Led given line indent comment gap (keyword ++ rest)

/-- The parts make the line a declaration. -/
structure Declares (given : List Text) (line : Text) (p : Parts) : Prop where
  led : Led given line p.indent p.comment p.gap (startKeyword ++ (p.id ++ p.tail))
  id : isId p.id = true
  proper : ∀ x ∈ p.pieces, x.Proper
  closing : ∀ c ∈ p.closing, isCommentEnd c.word = true
  target : p.closing = none → p.checksum ≠ none → isCommentEnd p.target.word = false
  blanks : Blank p.blanks

/-- An end tag cut into its parts. -/
structure EndParts where
  indent : Text
  comment : Text
  gap : Text
  id : Text
  closing : Option Piece
  blanks : Text

namespace EndParts

def tail (p : EndParts) : Text :=
  p.closing.toList.flatMap Piece.text ++ p.blanks

def tag (p : EndParts) : End :=
  ⟨p.comment, p.id, p.closing.map Piece.word⟩

end EndParts

structure Finishes (given : List Text) (line : Text) (p : EndParts) : Prop where
  led : Led given line p.indent p.comment p.gap (endKeyword ++ (p.id ++ p.tail))
  id : isId p.id = true
  proper : ∀ c ∈ p.closing, c.Proper ∧ isCommentEnd c.word = true
  blanks : Blank p.blanks

theorem isBlank_of_isIdChar {c : Char} (h : isIdChar c = true) : Text.isBlank c = false := by
  delta isIdChar Char.isAlphanum Char.isAlpha Char.isUpper Char.isLower Char.isDigit at h
  simp only [Bool.or_eq_true, Bool.and_eq_true, decide_eq_true_eq, beq_iff_eq,
    UInt32.le_iff_toNat_le, ge_iff_le] at h
  change (((((65 ≤ c.toNat ∧ c.toNat ≤ 90) ∨ (97 ≤ c.toNat ∧ c.toNat ≤ 122)) ∨
    (48 ≤ c.toNat ∧ c.toNat ≤ 57)) ∨ c = '_') ∨ c = '.') ∨ c = '-' at h
  have hn : 45 ≤ c.toNat ∧ c.toNat < 123 := by
    rcases h with (((h | h) | rfl) | rfl) | rfl
    · omega
    · omega
    · decide
    · decide
    · decide
  have h₁ : ¬ (9 ≤ c.toNat ∧ c.toNat ≤ 13) := by omega
  have h₂ : ¬ (0x2000 ≤ c.toNat ∧ c.toNat ≤ 0x200A) := by omega
  simp only [Text.isBlank, Bool.or_eq_false_iff, Bool.and_eq_false_iff, decide_eq_false_iff_not,
    beq_eq_false_iff_ne]
  omega

theorem solid_of_isId {id : Text} (h : isId id = true) : Solid id := by
  cases id with
  | nil => simp [Solid]
  | cons c rest =>
    simp only [isId, Bool.and_eq_true, List.all_eq_true] at h
    intro x hx
    rcases List.mem_cons.mp hx with rfl | hx
    · apply isBlank_of_isIdChar
      simp only [isIdChar, Bool.or_eq_true] at h ⊢
      exact .inl (.inl h.1)
    · exact isBlank_of_isIdChar (h.2 x hx)

theorem Longest.head {text : Text} (h : Longest given text.trimStart comment) :
    ∀ c ∈ comment.head?, Text.isBlank c = false := by
  intro c hc
  obtain ⟨more, hmore⟩ := h.starts
  obtain ⟨x, front, rfl⟩ := List.exists_cons_of_ne_nil h.ne_nil
  refine Text.head_dropWhile (t := text) (p := Text.isBlank) ?_
  rw [Text.trimStart] at hmore
  rw [← hmore]
  exact hc

namespace Led

variable (h : Led given line indent comment gap body)

include h

theorem head (more : Text) : ∀ c ∈ (comment ++ more).head?, Text.isBlank c = false := by
  obtain ⟨x, front, hx⟩ := List.exists_cons_of_ne_nil h.comment.ne_nil
  have hh := h.comment.head
  rw [hx] at hh ⊢
  exact hh

theorem takeWhile_eq : line.takeWhile Text.isBlank = indent := by
  rw [h.line_eq]
  exact Text.takeWhile_append_of_head h.indent (h.head _)

theorem trimStart_eq : line.trimStart = comment ++ (gap ++ body) := by
  rw [Text.trimStart, h.line_eq]
  exact Text.dropWhile_append_of_head h.indent (h.head _)

end Led

theorem Led.unique {indent' comment' gap' body' : Text}
    (h : Led given line indent comment gap body) (h' : Led given line indent' comment' gap' body')
    (hb : ∀ c ∈ body.head?, Text.isBlank c = false)
    (hb' : ∀ c ∈ body'.head?, Text.isBlank c = false) :
    indent = indent' ∧ comment = comment' ∧ gap = gap' ∧ body = body' := by
  obtain rfl := h.comment.unique h'.comment
  have hrest : gap ++ body = gap' ++ body' :=
    List.append_cancel_left (h.trimStart_eq.symm.trans h'.trimStart_eq)
  have hgap : gap = gap' := by
    rw [← Text.takeWhile_append_of_head h.gap hb, hrest]
    exact Text.takeWhile_append_of_head h'.gap hb'
  obtain rfl := hgap
  exact ⟨h.takeWhile_eq.symm.trans h'.takeWhile_eq, rfl, rfl, List.append_cancel_left hrest⟩

theorem head_startKeyword (rest : Text) :
    ∀ c ∈ (startKeyword ++ rest).head?, Text.isBlank c = false := by
  rintro c ⟨⟩
  decide

theorem head_endKeyword (rest : Text) :
    ∀ c ∈ (endKeyword ++ rest).head?, Text.isBlank c = false := by
  rintro c ⟨⟩
  decide

theorem Declares.worded {p : Parts} (h : Declares given line p) : p.Worded :=
  ⟨h.id, solid_of_isId h.id, h.proper, h.closing, h.target, h.blanks⟩

theorem Declares.pieces_tail {p : Parts} (h : Declares given line p) :
    p.tail.pieces = (p.pieces, p.blanks) :=
  Text.pieces_append h.proper h.blanks

theorem Declares.splitId {p : Parts} (h : Declares given line p) :
    TagSyntax.splitId (p.id ++ p.tail) = (p.id, p.tail) :=
  TagSyntax.splitId_append (solid_of_isId h.id) fun _ => Text.head_pieces h.proper h.blanks

theorem Declares.unique {p q : Parts} (hp : Declares given line p) (hq : Declares given line q) :
    p = q := by
  obtain ⟨hindent, hcomment, hgap, hbody⟩ :=
    hp.led.unique hq.led (head_startKeyword _) (head_startKeyword _)
  have hid : (p.id, p.tail) = (q.id, q.tail) := by
    rw [← hp.splitId, List.append_cancel_left hbody, hq.splitId]
  obtain ⟨hid, htail⟩ := Prod.mk.inj hid
  have hpieces : (p.pieces, p.blanks) = (q.pieces, q.blanks) := by
    rw [← hp.pieces_tail, htail, hq.pieces_tail]
  obtain ⟨hpieces, hblanks⟩ := Prod.mk.inj hpieces
  have hwords : (p.words, p.closing) = (q.words, q.closing) := by
    rw [← TagSyntax.splitCommentEnd_pieces hp.worded, hpieces,
      TagSyntax.splitCommentEnd_pieces hq.worded]
  obtain ⟨hwords, hclosing⟩ := Prod.mk.inj hwords
  obtain ⟨indent, comment, gap, id, checksum, target, closing, blanks⟩ := p
  obtain ⟨indent', comment', gap', id', checksum', target', closing', blanks'⟩ := q
  obtain ⟨hchecksum, htarget⟩ := List.append_inj' hwords rfl
  have hchecksum : checksum = checksum' := by
    cases checksum <;> cases checksum' <;> simp_all
  simp_all

/-- The bytes from the offset of the target on are the target and what trails it. -/
theorem Declares.drop_encode {p : Parts} (h : Declares given line p) :
    (encode line).drop p.tag.targetOffset = encode (p.tag.target ++ p.tag.trail) := by
  have htext : line = p.text := by
    rw [h.led.line_eq]
    simp only [Parts.text, Parts.stem, List.append_assoc]
  rw [htext, Parts.text_eq, Text.Utf8.encode_append]
  refine List.drop_left' ?_
  rw [Text.Utf8.length_encode]
  cases hc : p.checksum <;> simp [Parts.tag, hc]

namespace Finishes

variable {p : EndParts} (h : Finishes given line p)

include h

theorem proper_closing : ∀ x ∈ p.closing.toList, x.Proper :=
  fun x hx => (h.proper x (Option.mem_toList.mp hx)).1

theorem pieces_tail : p.tail.pieces = (p.closing.toList, p.blanks) :=
  Text.pieces_append h.proper_closing h.blanks

theorem splitId : TagSyntax.splitId (p.id ++ p.tail) = (p.id, p.tail) :=
  TagSyntax.splitId_append (solid_of_isId h.id)
    fun _ => Text.head_pieces h.proper_closing h.blanks

end Finishes

theorem Finishes.unique {p q : EndParts} (hp : Finishes given line p) (hq : Finishes given line q) :
    p = q := by
  obtain ⟨hindent, hcomment, hgap, hbody⟩ :=
    hp.led.unique hq.led (head_endKeyword _) (head_endKeyword _)
  have hid : (p.id, p.tail) = (q.id, q.tail) := by
    rw [← hp.splitId, List.append_cancel_left hbody, hq.splitId]
  obtain ⟨hid, htail⟩ := Prod.mk.inj hid
  have hpieces : (p.closing.toList, p.blanks) = (q.closing.toList, q.blanks) := by
    rw [← hp.pieces_tail, htail, hq.pieces_tail]
  obtain ⟨hclosing, hblanks⟩ := Prod.mk.inj hpieces
  obtain ⟨indent, comment, gap, id, closing, blanks⟩ := p
  obtain ⟨indent', comment', gap', id', closing', blanks'⟩ := q
  have hclosing : closing = closing' := by
    cases closing <;> cases closing' <;> simp_all
  simp_all

end Tag

namespace TagSyntax

open Tag
open Text (Piece Blank Solid)
open Text.Utf8 (encode)

variable {given : List Text} {line indent comment gap body rest : Text}

theorem classify_of_led (h : Led given line indent comment gap body)
    (hb : ∀ c ∈ body.head?, Text.isBlank c = false) :
    (ofComments given).classify line =
      match Text.after? startKeyword body with
      | some rest => startLine (indent ++ comment ++ gap) comment rest
      | none =>
        match Text.after? endKeyword body with
        | some rest => endLine comment rest
        | none => .content := by
  have hfind : (ofComments given).comments.find?
      (·.isPrefixOf (line.dropWhile Text.isBlank)) = some comment :=
    Syntax.find?_arrange_eq_some.mpr h.comment
  have htrim := h.trimStart_eq
  rw [Text.trimStart] at htrim
  rw [classify]
  dsimp only
  rw [hfind, h.takeWhile_eq, htrim]
  dsimp only
  rewrite [List.drop_left, Text.takeWhile_append_of_head h.gap hb,
    Text.dropWhile_append_of_head h.gap hb]
  rfl

theorem classify_of_led_start (h : Led given line indent comment gap (startKeyword ++ rest)) :
    (ofComments given).classify line = startLine (indent ++ comment ++ gap) comment rest := by
  rw [classify_of_led h (head_startKeyword rest), Text.after?_eq_some.mpr rfl]

theorem after?_startKeyword_endKeyword (rest : Text) :
    Text.after? startKeyword (endKeyword ++ rest) = none := rfl

theorem classify_of_led_end (h : Led given line indent comment gap (endKeyword ++ rest)) :
    (ofComments given).classify line = endLine comment rest := by
  rw [classify_of_led h (head_endKeyword rest), after?_startKeyword_endKeyword,
    Text.after?_eq_some.mpr rfl]

/-- A line without a comment start is content, and any other is led by the longest one. -/
theorem content_or_led (given : List Text) (line : Text) :
    (ofComments given).classify line = .content ∨
      ∃ indent comment gap body, Led given line indent comment gap body ∧
        ∀ c ∈ body.head?, Text.isBlank c = false := by
  cases hf : (Syntax.arrange given).find? (·.isPrefixOf line.trimStart) with
  | none =>
    have hnone : (ofComments given).comments.find?
        (·.isPrefixOf (line.dropWhile Text.isBlank)) = none := hf
    left
    rw [classify]
    dsimp only
    rw [hnone]
  | some comment =>
    have hlongest := Syntax.longest_of_find? hf
    obtain ⟨rest, hrest⟩ := hlongest.starts
    refine .inr ⟨line.takeWhile Text.isBlank, comment, rest.takeWhile Text.isBlank,
      rest.dropWhile Text.isBlank, ⟨?_, Text.blank_takeWhile line, hlongest,
        Text.blank_takeWhile rest⟩, fun c hc => Text.head_dropWhile hc⟩
    rw [List.takeWhile_append_dropWhile, hrest, Text.trimStart, List.takeWhile_append_dropWhile]

theorem startLine_cases (lead comment rest : Text) :
    (∃ tag, startLine lead comment rest = .start tag) ∨
      ∃ fault, startLine lead comment rest = .badStart fault := by
  unfold startLine
  dsimp only
  split
  next => exact .inr ⟨_, rfl⟩
  next =>
    split
    next => exact .inr ⟨_, rfl⟩
    next =>
      split
      next => exact .inr ⟨_, rfl⟩
      next => exact .inl ⟨_, rfl⟩
      next => exact .inl ⟨_, rfl⟩
      next => exact .inr ⟨_, rfl⟩

theorem endLine_cases (comment rest : Text) :
    (∃ tag, endLine comment rest = .finish tag) ∨ ∃ fault, endLine comment rest = .badEnd fault := by
  unfold endLine
  dsimp only
  split
  next => exact .inr ⟨_, rfl⟩
  next =>
    split
    next => exact .inr ⟨_, rfl⟩
    next =>
      split
      next => exact .inl ⟨_, rfl⟩
      next =>
        split
        next => exact .inl ⟨_, rfl⟩
        next => exact .inr ⟨_, rfl⟩
      next => exact .inr ⟨_, rfl⟩

theorem classify_of_declares {p : Parts} (h : Declares given line p) :
    (ofComments given).classify line = .start p.tag := by
  rw [classify_of_led_start h.led]
  exact startLine_of_worded h.worded

theorem exists_declares {tag : Start} (h : (ofComments given).classify line = .start tag) :
    ∃ p, Declares given line p ∧ p.tag = tag := by
  obtain ⟨p, hp, rfl, rfl⟩ := exists_fit h
  have hlongest := Syntax.longest_of_find? hp.comment
  have hhead : ∀ c ∈ (p.stem ++ p.tail).head?, Text.isBlank c = false := by
    obtain ⟨c, front, hc⟩ := List.exists_cons_of_ne_nil hlongest.ne_nil
    have hh := hp.head
    rw [hc] at hh
    simpa [Parts.stem, hc] using hh
  have htrim : p.text.trimStart = p.stem ++ p.tail :=
    Text.dropWhile_append_of_head hp.indent hhead
  refine ⟨p, ⟨⟨?_, hp.indent, htrim ▸ hlongest, hp.gap⟩, hp.id, hp.proper, hp.closing, hp.target,
    hp.blanks⟩, rfl⟩
  simp only [Parts.text, Parts.stem, List.append_assoc]

theorem classify_of_finishes {p : EndParts} (h : Finishes given line p) :
    (ofComments given).classify line = .finish p.tag := by
  have hid : p.id ≠ [] := by
    intro he
    have := h.id
    simp [he, isId] at this
  rw [classify_of_led_end h.led, endLine, h.splitId]
  simp only [hid, if_false, h.id, Bool.not_true, Bool.false_eq_true, h.pieces_tail]
  cases hc : p.closing with
  | none => simp [EndParts.tag, hc]
  | some c => simp [EndParts.tag, hc, (h.proper c hc).2]

theorem exists_words_of_endLine {tag : End} (h : endLine comment rest = .finish tag) :
    ∃ id closing blanks,
      rest = id ++ ((closing : Option Piece).toList.flatMap Piece.text ++ blanks) ∧
        isId id = true ∧ (∀ c ∈ closing, c.Proper ∧ isCommentEnd c.word = true) ∧ Blank blanks ∧
          tag = ⟨comment, id, closing.map Piece.word⟩ := by
  unfold endLine at h
  have hhead : ∀ c ∈ (rest.dropWhile (!Text.isBlank ·)).head?, Text.isBlank c = true :=
    fun c hc => by simpa using Text.head_dropWhile hc
  have hrest : rest = rest.takeWhile (!Text.isBlank ·) ++ rest.dropWhile (!Text.isBlank ·) :=
    List.takeWhile_append_dropWhile.symm
  rw [splitId] at h
  generalize rest.takeWhile (!Text.isBlank ·) = id at *
  generalize rest.dropWhile (!Text.isBlank ·) = tail at *
  dsimp only at h
  split at h
  next => simp at h
  next =>
    split at h
    next => simp at h
    next hid =>
      have hid' : isId id = true := by simpa using hid
      obtain ⟨htail, hproper, hblanks⟩ := Text.pieces_spec rfl hhead
      split at h
      next hp =>
        rw [hp] at htail
        exact ⟨id, none, _, hrest.trans (congrArg _ htail), hid', by simp, hblanks,
          (Line.finish.inj h).symm⟩
      next closing hp =>
        rw [hp] at htail hproper
        split at h
        next hc =>
          refine ⟨id, some closing, _, hrest.trans (congrArg _ htail), hid', ?_, hblanks,
            (Line.finish.inj h).symm⟩
          rintro c ⟨⟩
          exact ⟨hproper closing (by simp), hc⟩
        next => simp at h
      next => simp at h

theorem exists_finishes {tag : End} (h : (ofComments given).classify line = .finish tag) :
    ∃ p, Finishes given line p ∧ p.tag = tag := by
  rcases content_or_led given line with hcontent | ⟨indent, comment, gap, body, hled, hb⟩
  · simp [hcontent] at h
  rw [classify_of_led hled hb] at h
  split at h
  next rest _ =>
    rcases startLine_cases (indent ++ comment ++ gap) comment rest with ⟨_, hs⟩ | ⟨_, hs⟩
    · rw [hs] at h
      simp at h
    · rw [hs] at h
      simp at h
  next =>
    split at h
    next rest hrest =>
      obtain ⟨id, closing, blanks, rfl, hid, hproper, hblanks, rfl⟩ := exists_words_of_endLine h
      rw [Text.after?_eq_some.mp hrest] at hled
      exact ⟨⟨indent, comment, gap, id, closing, blanks⟩, ⟨hled, hid, hproper, hblanks⟩, rfl⟩
    next => simp at h

/-- What the grammar makes of a line is what it is sorted as. -/
structure Grammatical (given : List Text) (line : Text) : Prop where
  start : ∀ tag, (ofComments given).classify line = .start tag ↔
    ∃ p, Declares given line p ∧ p.tag = tag
  start_unique : ∀ p q, Declares given line p → Declares given line q → p = q
  offset : ∀ tag, (ofComments given).classify line = .start tag →
    (encode line).drop tag.targetOffset = encode (tag.target ++ tag.trail)
  finish : ∀ tag, (ofComments given).classify line = .finish tag ↔
    ∃ p, Finishes given line p ∧ p.tag = tag
  finish_unique : ∀ p q, Finishes given line p → Finishes given line q → p = q
  badStart : (∃ fault, (ofComments given).classify line = .badStart fault) ↔
    Keyed given line startKeyword ∧ ¬ ∃ p, Declares given line p
  badEnd : (∃ fault, (ofComments given).classify line = .badEnd fault) ↔
    Keyed given line endKeyword ∧ ¬ ∃ p, Finishes given line p
  content : (ofComments given).classify line = .content ↔
    ¬ Keyed given line startKeyword ∧ ¬ Keyed given line endKeyword
  order : ∀ given', (∀ c, c ≠ [] → (c ∈ given' ↔ c ∈ given)) →
    (ofComments given').classify line = (ofComments given).classify line

theorem keyed_of_classify {l : Tag.Line} (h : (ofComments given).classify line = l) :
    (Keyed given line startKeyword ∧ ((∃ tag, l = .start tag) ∨ ∃ fault, l = .badStart fault)) ∨
      (Keyed given line endKeyword ∧ ((∃ tag, l = .finish tag) ∨ ∃ fault, l = .badEnd fault)) ∨
        l = .content := by
  subst h
  rcases content_or_led given line with hcontent | ⟨indent, comment, gap, body, hled, hb⟩
  · exact .inr (.inr hcontent)
  rw [classify_of_led hled hb]
  cases hs : Text.after? startKeyword body with
  | some rest =>
    have hbody := Text.after?_eq_some.mp hs
    exact .inl ⟨⟨indent, comment, gap, rest, hbody ▸ hled⟩, startLine_cases _ comment rest⟩
  | none =>
    cases he : Text.after? endKeyword body with
    | some rest =>
      have hbody := Text.after?_eq_some.mp he
      exact .inr (.inl ⟨⟨indent, comment, gap, rest, hbody ▸ hled⟩, endLine_cases comment rest⟩)
    | none => exact .inr (.inr rfl)

theorem classify_of_keyed_start (h : Keyed given line startKeyword) :
    (∃ tag, (ofComments given).classify line = .start tag) ∨
      ∃ fault, (ofComments given).classify line = .badStart fault := by
  obtain ⟨indent, comment, gap, rest, hled⟩ := h
  rw [classify_of_led_start hled]
  exact startLine_cases _ comment rest

theorem classify_of_keyed_end (h : Keyed given line endKeyword) :
    (∃ tag, (ofComments given).classify line = .finish tag) ∨
      ∃ fault, (ofComments given).classify line = .badEnd fault := by
  obtain ⟨indent, comment, gap, rest, hled⟩ := h
  rw [classify_of_led_end hled]
  exact endLine_cases comment rest

theorem grammatical (given : List Text) (line : Text) : Grammatical given line where
  start tag := by
    refine ⟨exists_declares, ?_⟩
    rintro ⟨p, hp, rfl⟩
    exact classify_of_declares hp
  start_unique _ _ hp hq := hp.unique hq
  offset tag h := by
    obtain ⟨p, hp, rfl⟩ := exists_declares h
    exact hp.drop_encode
  finish tag := by
    refine ⟨exists_finishes, ?_⟩
    rintro ⟨p, hp, rfl⟩
    exact classify_of_finishes hp
  finish_unique _ _ hp hq := hp.unique hq
  badStart := by
    constructor
    · rintro ⟨fault, h⟩
      refine ⟨?_, ?_⟩
      · rcases keyed_of_classify h with ⟨hk, -⟩ | ⟨-, ⟨_, hl⟩ | ⟨_, hl⟩⟩ | hl
        · exact hk
        · simp at hl
        · simp at hl
        · simp at hl
      · rintro ⟨p, hp⟩
        simp [classify_of_declares hp] at h
    · rintro ⟨hk, hno⟩
      rcases classify_of_keyed_start hk with ⟨tag, h⟩ | hbad
      · obtain ⟨p, hp, -⟩ := exists_declares h
        exact absurd ⟨p, hp⟩ hno
      · exact hbad
  badEnd := by
    constructor
    · rintro ⟨fault, h⟩
      refine ⟨?_, ?_⟩
      · rcases keyed_of_classify h with ⟨-, ⟨_, hl⟩ | ⟨_, hl⟩⟩ | ⟨hk, -⟩ | hl
        · simp at hl
        · simp at hl
        · exact hk
        · simp at hl
      · rintro ⟨p, hp⟩
        simp [classify_of_finishes hp] at h
    · rintro ⟨hk, hno⟩
      rcases classify_of_keyed_end hk with ⟨tag, h⟩ | hbad
      · obtain ⟨p, hp, -⟩ := exists_finishes h
        exact absurd ⟨p, hp⟩ hno
      · exact hbad
  content := by
    constructor
    · intro h
      refine ⟨fun hk => ?_, fun hk => ?_⟩
      · rcases classify_of_keyed_start hk with ⟨_, h'⟩ | ⟨_, h'⟩ <;> simp [h'] at h
      · rcases classify_of_keyed_end hk with ⟨_, h'⟩ | ⟨_, h'⟩ <;> simp [h'] at h
    · rintro ⟨hstart, hend⟩
      have hkeyed := keyed_of_classify (rfl : (ofComments given).classify line = _)
      rcases hkeyed with ⟨hk, -⟩ | ⟨hk, -⟩ | h
      · exact absurd hk hstart
      · exact absurd hk hend
      · exact h
  order given' hg := by
    have hfind := Syntax.find?_arrange_congr hg
    simp only [classify, ofComments, hfind]

end TagSyntax

end BlockSync
