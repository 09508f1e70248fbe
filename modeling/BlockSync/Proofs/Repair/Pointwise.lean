import BlockSync.Proofs.Repair.Rewrite
import BlockSync.Proofs.Text.Line

/-! Rewriting told line by line. A fix applies if its line is there and reads as it did, and what
becomes of a line depends on the fixes of that line alone, whatever else is in the list. -/

namespace BlockSync

/-- What a fix puts in the place of its line. -/
def Fix.replacement? : Fix → Option Text
  | .delete .. => none
  | .replace _ text _ _ => some text

namespace Repair

open Text.Utf8 (Bytes encode decode)

/-- Whether the line with the fix's number is there and reads as the fix says. -/
def applies (lines : List Line) (fix : Fix) : Bool :=
  fix.line != 0 && lines[fix.line - 1]?.any (·.text == fix.declaration)

/-- Nothing if one of the line's fixes deletes it, or else the first replacement with the line's own
terminator, or else the line as it was. -/
def revisedLine (fixes : List Fix) (number : Nat) (line : Line) : Text :=
  let fitting := fixes.filter (fits number line.text)
  if fitting.any Fix.isDelete then []
  else
    match fitting.findSome? Fix.replacement? with
    | some text => text ++ line.terminator
    | none => line.raw

theorem any_fits_eq_applies (lines : List Line) (fix : Fix) :
    ((lines.zipIdx 1).any fun e => fits e.2 e.1.text fix) = applies lines fix := by
  rw [Bool.eq_iff_iff, List.any_eq_true]
  simp only [applies, Bool.and_eq_true, bne_iff_ne, Option.any_eq_true, beq_iff_eq, fits_iff,
    Prod.exists, List.mk_mem_zipIdx_iff_le_and_getElem?_sub]
  constructor
  · rintro ⟨line, number, ⟨hle, hget⟩, rfl, htext⟩
    exact ⟨by omega, line, hget, htext.symm⟩
  · rintro ⟨hne, line, hget, htext⟩
    exact ⟨line, fix.line, ⟨by omega, hget⟩, rfl, htext.symm⟩

theorem rewriteLine_filter (fixes : List Fix) (number : Nat) (line : Line) :
    rewriteLine (fixes.filter (fits number line.text)) line = revisedLine fixes number line := by
  unfold rewriteLine revisedLine
  generalize fixes.filter (fits number line.text) = fitting
  by_cases hdelete : fitting.any Fix.isDelete = true
  · simp only [hdelete, if_true]
  · simp only [if_neg hdelete]
    cases fitting with
    | nil => rfl
    | cons fix rest =>
      cases fix with
      | delete => simp [Fix.isDelete] at hdelete
      | replace => rfl

/-- Text is rewritten line by line: the fixes that apply are counted, and each line becomes what its
own fixes make of it. -/
theorem rewrite_pointwise {bytes : Bytes} {text : Text} (h : decode bytes = .ok text)
    (fixes : List Fix) :
    ∃ lines, Line.read bytes = ⟨lines, none⟩ ∧ Line.Cut lines ∧
      encode (lines.flatMap Line.raw) = bytes ∧
      (rewrite lines fixes).applied = fixes.countP (applies lines) ∧
      (rewrite lines fixes).output =
        (lines.zipIdx 1).flatMap fun e => revisedLine fixes e.2 e.1 := by
  obtain ⟨lines, hread, hcut, -⟩ := Line.read_of_decode h
  refine ⟨lines, hread, hcut, Line.encode_of_read hread, ?_, ?_⟩
  · rw [applied_rewrite]
    exact List.countP_congr fun fix _ => by rw [any_fits_eq_applies]
  · rw [output_rewrite]
    exact List.flatMap_congr fun e _ => rewriteLine_filter fixes e.2 e.1

/-- The first and the last line read the same. The last one is deleted though a replacement of it
comes first, and one fix is for a line that reads otherwise. -/
theorem rewrite_pointwise_twins :
    let bytes := encode "m 1\nx\r\nm 1\n"
    let fixes : List Fix := [.replace 3 "m 2" [] "m 1", .replace 2 "y" [] "x", .delete 3 [] "m 1",
      .replace 1 "m 3" [] "m 2", .replace 0 "z" [] "x", .replace 2 "w" [] "x"]
    decode bytes = .ok "m 1\nx\r\nm 1\n" ∧
      ∃ lines, Line.read bytes = ⟨lines, none⟩ ∧ (rewrite lines fixes).applied = 4 ∧
        (rewrite lines fixes).output = "m 1\ny\r\n" := by
  intro bytes fixes
  have h : decode bytes = .ok "m 1\nx\r\nm 1\n" := Text.Utf8.decode_encode _
  have hread : Line.read bytes = ⟨[⟨"m 1", "\n"⟩, ⟨"x", "\r\n"⟩, ⟨"m 1", "\n"⟩], none⟩ := by
    decide +kernel
  obtain ⟨lines, hlines, -, -, happlied, houtput⟩ := rewrite_pointwise h fixes
  obtain rfl := (Line.Reading.mk.inj (hlines.symm.trans hread)).1
  exact ⟨h, _, hlines, happlied.trans (by decide), houtput.trans (by decide)⟩

end Repair

end BlockSync
