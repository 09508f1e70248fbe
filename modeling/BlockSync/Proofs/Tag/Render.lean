import BlockSync.Proofs.Tag.Syntax

/-! Writing into declarations and reading them back. What was written is what is read, but for one
case: behind a checksum, a target that looks like the end of a comment is taken for one if no other
follows, and the checksum is taken for the target. -/

namespace BlockSync

namespace Tag

open Text (Solid)

def Start.rewritten (tag : Start) (checksum target : Text) : Start :=
  { tag with
    checksum := if checksum = [] then none else some checksum
    target
    targetOffset := (tag.lead ++ startKeyword ++ tag.id ++
      ((if checksum = [] then [] else ' ' :: checksum) ++ " ")).byteLength }

/-- The declaration of a checksum as the target, with the target as the end of the comment. -/
def Start.shifted (tag : Start) (checksum target : Text) : Start :=
  { tag with
    checksum := none
    target := checksum
    targetOffset := (tag.lead ++ startKeyword ++ tag.id ++ " ").byteLength
    trail := ' ' :: target ++ tag.trail
    commentEnd := some target }

/-- The target would be taken for the end of the comment. -/
def Start.Mistakes (tag : Start) (checksum target : Text) : Prop :=
  tag.commentEnd = none ∧ checksum ≠ [] ∧ isCommentEnd target = true

instance (tag : Start) (checksum target : Text) : Decidable (tag.Mistakes checksum target) :=
  inferInstanceAs (Decidable (_ ∧ _ ∧ _))

theorem Parts.tag_rewritten (p : Parts) (checksum target : Text) :
    (p.rewritten checksum target).tag = p.tag.rewritten checksum target := by
  by_cases he : checksum = [] <;>
    simp [Parts.tag, Parts.rewritten, Start.rewritten, Parts.lead, Text.Piece.text, he]

theorem Parts.tag_shifted {p : Parts} (h : p.closing = none) (checksum target : Text) :
    (p.shifted checksum target).tag = p.tag.shifted checksum target := by
  simp [Parts.tag, Parts.shifted, Start.shifted, Parts.lead, Text.Piece.text, h]

/-- Only the parts that a rewriting keeps bear on the next one. -/
theorem Start.render_rewritten (tag : Start) (checksum target checksum' target' : Text) :
    (tag.rewritten checksum target).render checksum' target' = tag.render checksum' target' := rfl

end Tag

namespace TagSyntax

open Tag
open Text (Solid)

variable {s : TagSyntax} {line checksum target : Text} {tag : Start}

theorem classify_render_of_not_mistakes (hs : s.Plain) (h : s.classify line = .start tag)
    (hc : Solid checksum) (hne : target ≠ []) (ht : Solid target)
    (hm : ¬ tag.Mistakes checksum target) :
    s.classify (tag.render checksum target) = .start (tag.rewritten checksum target) := by
  obtain ⟨p, hp, rfl, rfl⟩ := exists_fit h
  have hend : p.closing = none → checksum ≠ [] → isCommentEnd target = false := by
    intro hn hcne
    by_contra he
    exact hm ⟨by simp [Parts.tag, hn], hcne, by simpa using he⟩
  have hfit := fit_rewritten hs hp hc hne ht hend
  rw [← Parts.text_rewritten, ← Parts.tag_rewritten]
  exact classify_of_fit hfit

theorem classify_render_of_mistakes (hs : s.Plain) (h : s.classify line = .start tag)
    (hc : Solid checksum) (hne : target ≠ []) (ht : Solid target)
    (hm : tag.Mistakes checksum target) :
    s.classify (tag.render checksum target) = .start (tag.shifted checksum target) := by
  obtain ⟨p, hp, rfl, rfl⟩ := exists_fit h
  obtain ⟨hn, hcne, hend⟩ := hm
  have hclosing : p.closing = none := by simpa [Parts.tag] using hn
  have hfit := fit_shifted hs hp hcne hc hne ht hend
  rw [← Parts.text_shifted hclosing hcne, ← Parts.tag_shifted hclosing]
  exact classify_of_fit hfit

theorem withTarget?_of_start (h : s.classify line = .start tag) (target checksum : Text) :
    s.withTarget? line target checksum = some (tag.render checksum target) := by
  simp only [withTarget?, h]

theorem withChecksum?_of_start (h : s.classify line = .start tag) (checksum : Text) :
    s.withChecksum? line checksum = some (tag.render checksum tag.target) := by
  simp only [withChecksum?, h]

/-- The written line carries the checksum and the target in the place of those of the line, and
gives way to what is written next as the line itself does. -/
structure Carries (s : TagSyntax) (line : Text) (tag : Start) (checksum target written : Text) :
    Prop where
  start : ∃ tag', s.classify written = .start tag' ∧ tag'.lead = tag.lead ∧
    tag'.comment = tag.comment ∧ tag'.id = tag.id ∧ tag'.trail = tag.trail ∧
    tag'.commentEnd = tag.commentEnd ∧ tag'.target = target ∧
    tag'.checksum = if checksum = [] then none else some checksum
  overridden : ∀ target' checksum',
    s.withTarget? written target' checksum' = s.withTarget? line target' checksum'
  rechecked : ∀ checksum', s.withChecksum? written checksum' = s.withTarget? line target checksum'
  settled : s.withTarget? written target checksum = some written ∧
    s.withChecksum? written checksum = some written

theorem carries_of_classify (h : s.classify line = .start tag)
    (hr : s.classify (tag.render checksum target) = .start (tag.rewritten checksum target)) :
    s.Carries line tag checksum target (tag.render checksum target) where
  start := ⟨_, hr, rfl, rfl, rfl, rfl, rfl, rfl, rfl⟩
  overridden target' checksum' := by
    rw [withTarget?_of_start hr, withTarget?_of_start h, Start.render_rewritten]
  rechecked checksum' := by
    rw [withChecksum?_of_start hr, withTarget?_of_start h, Start.render_rewritten]
    rfl
  settled := by
    rw [withTarget?_of_start hr, withChecksum?_of_start hr]
    exact ⟨rfl, rfl⟩

/-- A declaration carries the checksum and the target that are written into it exactly if the
target is not mistaken for the end of the comment. -/
theorem carries_rewritten_iff (hs : s.Plain) (h : s.classify line = .start tag)
    (hc : Solid checksum) (hne : target ≠ []) (ht : Solid target) :
    ∃ written, s.withTarget? line target checksum = some written ∧
      (target = tag.target → s.withChecksum? line checksum = some written) ∧
      (s.Carries line tag checksum target written ↔ ¬ tag.Mistakes checksum target) ∧
      (tag.Mistakes checksum target →
        s.classify written = .start (tag.shifted checksum target)) := by
  refine ⟨tag.render checksum target, withTarget?_of_start h target checksum, ?_, ?_,
    classify_render_of_mistakes hs h hc hne ht⟩
  · rintro rfl
    exact withChecksum?_of_start h checksum
  · constructor
    · intro hcarries hm
      obtain ⟨tag', hr, -, -, -, -, hclosing, -⟩ := hcarries.start
      rw [classify_render_of_mistakes hs h hc hne ht hm] at hr
      obtain rfl := Line.start.inj hr
      rw [hm.1] at hclosing
      exact Option.some_ne_none target hclosing
    · intro hm
      exact carries_of_classify h (classify_render_of_not_mistakes hs h hc hne ht hm)

/-- Two dashes stay the target of a declaration without a checksum, and are lost once it gets one. -/
theorem carries_rewritten_dashes :
    let s := ofComments ["#"]
    let line : Text := "# sync-start:a --"
    let tag : Start := ⟨"# ", "#", "a", none, "--", 15, [], none⟩
    s.Plain ∧ s.classify line = .start tag ∧ Solid [] ∧ Solid "1" ∧ tag.target ≠ [] ∧
      Solid tag.target ∧ s.Carries line tag [] "--" line ∧
      s.withChecksum? line "1" = some "# sync-start:a 1 --" ∧
      ¬ s.Carries line tag "1" "--" "# sync-start:a 1 --" := by
  intro s line tag
  have hs : s.Plain := by decide
  have h : s.classify line = .start tag := by decide +kernel
  have hempty : Solid [] := by decide
  have hone : Solid "1" := by decide
  have ht : Solid tag.target := by decide
  obtain ⟨kept, hkept, -, hcarries, -⟩ :=
    carries_rewritten_iff hs h hempty (by decide) ht
  obtain ⟨lost, hlost, hcheck, hmistaken, -⟩ :=
    carries_rewritten_iff hs h hone (by decide) ht
  rw [withTarget?_of_start h] at hkept hlost
  obtain rfl := Option.some.inj hkept
  obtain rfl := Option.some.inj hlost
  exact ⟨hs, h, hempty, hone, by decide, ht, hcarries.mpr (by decide), hcheck rfl,
    fun hc => hmistaken.mp hc ⟨rfl, by decide, rfl⟩⟩

end TagSyntax

end BlockSync
