import BlockSync.Proofs.Block.Repeated
import BlockSync.Proofs.Repair.Rewrite

/-! Fixes that revise lines. If each of them finds its line then all of them apply, and if those of
each line make of it what its revision is, then the revised lines come out. -/

namespace BlockSync.Repair

open Block (revise reviseLine stateAfter)

variable {s : TagSyntax} {resolve : Text → Resolved} {amend : Tag.Start → Option Text}
  {lines : List Line} {fixes : List Fix}

theorem applied_of_fits (h : ∀ fix ∈ fixes, ∃ pre line post, lines = pre ++ line :: post ∧
    fits (pre.length + 1) line.text fix = true) : (rewrite lines fixes).applied = fixes.length := by
  rw [applied_rewrite, List.countP_eq_length]
  intro fix hm
  obtain ⟨pre, line, post, rfl, hf⟩ := h fix hm
  refine List.any_eq_true.mpr ⟨(line, pre.length + 1), ?_, hf⟩
  rw [List.mk_mem_zipIdx_iff_le_and_getElem?_sub]
  simp

/-- The fixes of a line behind others make of it what its revision is. -/
def RevisesAt (s : TagSyntax) (resolve : Text → Resolved) (amend : Tag.Start → Option Text)
    (fixes : List Fix) (pre : List Line) (line : Line) : Prop :=
  rewriteLine (fixes.filter (fits (pre.length + 1) line.text)) line =
    (reviseLine s resolve amend (stateAfter s resolve (pre.map Line.raw)) line).flatMap Line.raw

theorem output_from (rest : List Line) : ∀ pre, lines = pre ++ rest →
    (∀ pre line post, lines = pre ++ line :: post → RevisesAt s resolve amend fixes pre line) →
    ((rest.zipIdx (pre.length + 1)).flatMap fun e =>
      rewriteLine (fixes.filter (fits e.2 e.1.text)) e.1) =
      (revise s resolve amend (stateAfter s resolve (pre.map Line.raw)) rest).flatMap Line.raw := by
  induction rest with
  | nil =>
    intro pre _ _
    rfl
  | cons line rest ih =>
    intro pre hl h
    have hmore := ih (pre ++ [line]) (by rw [hl, List.append_assoc]; rfl) h
    rw [List.map_append, List.map_singleton, Block.stateAfter_concat, List.length_append,
      List.length_singleton] at hmore
    rw [List.zipIdx_cons, List.flatMap_cons, h pre line rest hl, hmore, revise, List.flatMap_append]

theorem output_of_revisesAt
    (h : ∀ pre line post, lines = pre ++ line :: post → RevisesAt s resolve amend fixes pre line) :
    (rewrite lines fixes).output = (revise s resolve amend .initial lines).flatMap Line.raw := by
  rw [output_rewrite]
  exact output_from lines [] rfl h

end BlockSync.Repair
