import BlockSync.Proofs.Block.Completed
import Mathlib.Data.Nat.Find

/-! Completed blocks read off the lines. A completed block with declarations is a closed block of
its id, and each closed block is completed. -/

namespace BlockSync.Block

variable {s : TagSyntax} {resolve : Text → Resolved} {lines : List Text} {id : Text}

/-- The block holds what the lines from `first` to `last` say. -/
structure Matches (s : TagSyntax) (resolve : Text → Resolved) (lines : List Text)
    (first last : Nat) (b : Block) : Prop where
  closed : Closed s lines b.id first last
  endLine_eq : b.endLine = last + 1
  content_eq : b.content = contentBetween s lines first last
  find?_targets : ∀ n t, b.targets.find? n = some t ↔ ∃ i raw tag, n = i + 1 ∧ first ≤ i ∧
    i < last ∧ lines[i]? = some raw ∧ reads s raw = .start tag ∧ tag.id = b.id ∧
    t = targetOf resolve tag raw

theorem Matches.targets_ne_empty {first last : Nat} {b : Block}
    (h : Matches s resolve lines first last b) : b.targets.isEmpty = false := by
  obtain ⟨raw, hraw, hs⟩ := h.closed.starts
  obtain ⟨tag, hr, hid⟩ := starts_iff.mp hs
  have hf := (h.find?_targets (first + 1) (targetOf resolve tag raw)).mpr
    ⟨first, raw, tag, rfl, Nat.le_refl _, h.closed.before, hraw, hr, hid, rfl⟩
  apply Bool.eq_false_iff.mpr
  intro he
  simp [SortedMap.find?, SortedMap.isEmpty_iff.mp he] at hf

theorem Completes.matches_span {pre : List Text} {raw : Text} {b : Block}
    (h : Completes s resolve pre raw b) (ho : span s b.id pre ≠ []) (post : List Text) :
    Matches s resolve (pre ++ raw :: post) (pre.length - (span s b.id pre).length) pre.length b := by
  have hspans := h.block ho
  have hle : (span s b.id pre).length ≤ pre.length := length_span_le pre
  have hdrop : span s b.id pre = pre.drop (pre.length - (span s b.id pre).length) :=
    span_eq_drop pre
  have hgrow : 0 < (span s b.id pre).length := List.length_pos_iff.mpr ho
  refine ⟨(unclosed_of_span ho).closed h.ends post, h.endLine_eq, ?_, ?_⟩
  · obtain ⟨x, rest, tag, hx, hr, -⟩ := hspans.head
    have hno : isContent s x = false := by simp [isContent, hr]
    have hrest : (pre.drop (pre.length - (span s b.id pre).length + 1)) = rest := by
      rw [← List.drop_drop, ← hdrop, hx]
      rfl
    rw [hspans.content_eq, contentBetween, List.take_left, hrest, hx, List.filter_cons, hno]
    rfl
  · intro n t
    rw [← SortedMap.mem_entries_iff, hspans.targets_eq, mem_declared]
    constructor
    · rintro ⟨j, x, tag, hx, hr, hid, he⟩
      obtain ⟨rfl, rfl⟩ := Prod.mk.inj he
      have hj := (List.getElem?_eq_some_iff.mp hx).1
      rw [hdrop, List.getElem?_drop] at hx
      refine ⟨pre.length - (span s b.id pre).length + j, x, tag, ?_, by omega, by omega, ?_, hr,
        hid, rfl⟩
      · rw [firstOf]
        omega
      · rw [List.getElem?_append_left (by omega), hx]
    · rintro ⟨i, x, tag, rfl, hfi, hil, hx, hr, hid, rfl⟩
      rw [List.getElem?_append_left hil] at hx
      obtain ⟨j, rfl⟩ := Nat.exists_eq_add_of_le hfi
      refine ⟨j, x, tag, ?_, hr, hid, ?_⟩
      · rw [hdrop, List.getElem?_drop, hx]
      · rw [firstOf]
        congr 1
        omega

theorem matches_of_mem_events {b : Block} (hb : b ∈ completed (events s resolve lines))
    (ht : b.targets.isEmpty = false) : ∃ first last, Matches s resolve lines first last b := by
  obtain ⟨pre, raw, post, rfl, hc⟩ := completes_of_mem_events hb
  have ho : span s b.id pre ≠ [] := by
    intro ho
    simp [SortedMap.isEmpty, (hc.orphan ho).2] at ht
  exact ⟨_, _, hc.matches_span ho post⟩

theorem Closed.exists_matches {first last : Nat} (h : Closed s lines id first last)
    (resolve : Text → Resolved) :
    ∃ b ∈ completed (events s resolve lines), b.id = id ∧ Matches s resolve lines first last b := by
  have hspan := h.span_take
  have hbefore := h.before
  obtain ⟨raw, hraw, he⟩ := h.ends
  obtain ⟨hlt, hget⟩ := List.getElem?_eq_some_iff.mp hraw
  have hlen : (lines.take last).length = last := by
    rw [List.length_take]
    omega
  have hsplit : lines = lines.take last ++ raw :: lines.drop (last + 1) := by
    rw [← hget, List.getElem_cons_drop, List.take_append_drop]
  have hfirst : (span s id (lines.take last)).length = last - first := by
    rw [hspan, List.length_drop, hlen]
  have hne : span s id (lines.take last) ≠ [] := by
    intro ho
    rw [ho, List.length_nil] at hfirst
    omega
  obtain ⟨b, hb, rfl, hc⟩ :=
    exists_completed_events resolve (lines.take last) (lines.drop (last + 1)) he
  have hm := hc.matches_span hne (lines.drop (last + 1))
  rw [← hsplit] at hb hm
  rw [hlen, hfirst, show last - (last - first) = first by omega] at hm
  exact ⟨b, hb, rfl, hm⟩

theorem exists_closed_of_start {i : Nat} (hs : StartsAt s lines id i)
    (hex : ∃ j, i < j ∧ EndsAt s lines id j) :
    ∃ first last, Closed s lines id first last ∧ first ≤ i ∧ i < last := by
  classical
  obtain ⟨hij, hend⟩ := Nat.find_spec hex
  have hleast : ∀ j, i < j → j < Nat.find hex → ¬EndsAt s lines id j :=
    fun j hj hlt he => Nat.find_min hex hlt ⟨hj, he⟩
  generalize Nat.find hex = last at hij hend hleast
  obtain ⟨raw, hraw, he⟩ := hend
  obtain ⟨hlt, hget⟩ := List.getElem?_eq_some_iff.mp hraw
  have hlen : (lines.take last).length = last := by
    rw [List.length_take]
    omega
  have hsplit : lines = lines.take last ++ raw :: lines.drop (last + 1) := by
    rw [← hget, List.getElem_cons_drop, List.take_append_drop]
  have hopen : span s id (lines.take last) ≠ [] := by
    intro ho
    have hstart : StartsAt s (lines.take last) id i := by
      obtain ⟨x, hx, hxs⟩ := hs
      exact ⟨x, by rw [List.getElem?_take_of_lt hij, hx], hxs⟩
    obtain ⟨j, hj, hej⟩ := span_eq_nil_iff.mp ho i hstart
    have hjl := hej.lt
    rw [hlen] at hjl
    refine hleast j hj hjl ?_
    rw [hsplit, endsAt_append_left (by rw [hlen]; exact hjl)]
    exact hej
  have hclosed := (unclosed_of_span hopen).closed he (lines.drop (last + 1))
  rw [← hsplit, hlen] at hclosed
  refine ⟨_, last, hclosed, ?_, hij⟩
  by_contra hlate
  obtain ⟨j, hj, hjf, hej⟩ := hclosed.fresh i (by omega) hs
  exact hleast j hj (by omega) hej

end BlockSync.Block
