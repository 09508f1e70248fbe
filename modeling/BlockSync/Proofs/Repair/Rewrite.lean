import BlockSync.Repair
import Mathlib.Data.List.Basic

/-! Which fixes of a list apply. Each line gets the fixes that name its number and its text, in the
order of the list, however the queues hand them out. -/

namespace BlockSync.Repair

/-- Whether a fix is one of a line with this number and text. -/
def fits (number : Nat) (text : Text) (fix : Fix) : Bool :=
  fix.line == number && fix.declaration == text

theorem fits_iff {number : Nat} {text : Text} {fix : Fix} :
    fits number text fix = true ↔ fix.line = number ∧ fix.declaration = text := by
  simp [fits]

theorem takeWhile_eq_filter {α : Type} {p : α → Bool} {l : List α}
    (h : l.Pairwise fun a b => p b = true → p a = true) : l.takeWhile p = l.filter p := by
  induction l with
  | nil => rfl
  | cons a l ih =>
    rw [List.pairwise_cons] at h
    by_cases ha : p a = true
    · simp [ha, ih h.2]
    · have hl : ∀ b ∈ l, ¬p b = true := fun b hb hp => ha (h.1 b hb hp)
      simpa [ha] using hl

theorem dropWhile_eq_filter {α : Type} {p : α → Bool} {l : List α}
    (h : l.Pairwise fun a b => p b = true → p a = true) : l.dropWhile p = l.filter (!p ·) := by
  induction l with
  | nil => rfl
  | cons a l ih =>
    rw [List.pairwise_cons] at h
    by_cases ha : p a = true
    · simp [ha, ih h.2]
    · have hl : l.filter (!p ·) = l :=
        List.filter_eq_self.mpr fun b hb => by simpa using fun hp => ha (h.1 b hb hp)
      simp [ha, hl]

def Ordered (queue : List Fix) : Prop :=
  queue.Pairwise (·.line ≤ ·.line)

/-- Whether a fix is one of a line from `number` on. -/
def reaches (number : Nat) (fix : Fix) : Bool :=
  number ≤ fix.line

theorem dequeue_eq {queue : List Fix} (h : Ordered queue) (number : Nat) :
    dequeue number queue =
      (queue.filter (·.line == number), queue.filter (reaches (number + 1))) := by
  have hlow : queue.dropWhile (fun fix => decide (fix.line < number)) =
      queue.filter (reaches number) := by
    rw [dropWhile_eq_filter]
    · exact List.filter_congr fun fix _ => by grind [reaches]
    · refine h.imp fun hab hb => ?_
      have := of_decide_eq_true hb
      exact decide_eq_true (by omega)
  have hcurrent : (queue.filter (reaches number)).Pairwise
      fun a b => (b.line == number) = true → (a.line == number) = true := by
    refine (h.filter _).imp_of_mem fun {a b} ha _ hab hb => ?_
    have hge : number ≤ a.line := by simpa [reaches] using (List.mem_filter.mp ha).2
    have hle := beq_iff_eq.mp hb
    exact beq_iff_eq.mpr (by omega)
  rw [dequeue, hlow, takeWhile_eq_filter hcurrent, dropWhile_eq_filter hcurrent, List.filter_filter,
    List.filter_filter]
  congr 1
  · exact List.filter_congr fun fix _ => by grind [reaches]
  · exact List.filter_congr fun fix _ => by grind [reaches]

/-- The fixes that wait for lines with this text. -/
def queueOf (queues : Queues) (text : Text) : List Fix :=
  match queues with
  | [] => []
  | (key, queue) :: rest => if key = text then queue else queueOf rest text

theorem queueOf_enqueue (queues : Queues) (fix : Fix) (text : Text) :
    queueOf (enqueue queues fix) text =
      if fix.declaration = text then queueOf queues text ++ [fix] else queueOf queues text := by
  induction queues with
  | nil => simp [enqueue, queueOf]
  | cons e rest ih =>
    simp only [enqueue]
    by_cases he : e.1 = fix.declaration
    · by_cases ht : fix.declaration = text <;> simp [he, queueOf, ht]
    · by_cases ht : e.1 = text
      · have hne : fix.declaration ≠ text := fun h => he (ht.trans h.symm)
        simp only [if_neg he, queueOf, if_pos ht, if_neg hne]
      · simp only [if_neg he, queueOf, if_neg ht, ih]

theorem queueOf_foldl (queues : Queues) (fixes : List Fix) (text : Text) :
    queueOf (fixes.foldl enqueue queues) text =
      queueOf queues text ++ fixes.filter (·.declaration == text) := by
  induction fixes generalizing queues with
  | nil => simp
  | cons fix fixes ih =>
    rw [List.foldl_cons, ih, queueOf_enqueue]
    by_cases h : fix.declaration = text <;> simp [h]

theorem matching_eq (queues : Queues) (number : Nat) (text : Text) :
    (matching queues number text).1 = (dequeue number (queueOf queues text)).1 ∧
      ∀ other, queueOf (matching queues number text).2 other =
        if other = text then (dequeue number (queueOf queues text)).2 else queueOf queues other := by
  induction queues with
  | nil => simp [matching, queueOf, dequeue]
  | cons e rest ih =>
    by_cases he : e.1 = text
    · simp only [matching, he, if_true, queueOf, true_and]
      intro other
      by_cases ho : other = text
      · simp [ho]
      · simp [ho, Ne.symm ho]
    · simp only [matching, he, if_false, queueOf, ih.1, true_and]
      intro other
      by_cases ho : e.1 = other
      · have hne : other ≠ text := fun h => he (ho.trans h)
        simp [ho, hne]
      · simp [ho, ih.2]

/-- The queues hold what is left of the fixes for the lines from `number` on. -/
def Waits (fixes : List Fix) (queues : Queues) (number : Nat) : Prop :=
  ∀ text, Ordered (queueOf queues text) ∧ (queueOf queues text).filter (reaches number) =
    (fixes.filter (·.declaration == text)).filter (reaches number)

theorem Waits.matched {fixes : List Fix} {queues : Queues} {number : Nat}
    (h : Waits fixes queues number) (text : Text) :
    (matching queues number text).1 = fixes.filter (fits number text) := by
  obtain ⟨ho, hf⟩ := h text
  have hline : ∀ queue : List Fix, queue.filter (·.line == number) =
      (queue.filter (reaches number)).filter (·.line == number) := by
    intro queue
    rw [List.filter_filter]
    exact List.filter_congr fun fix _ => by grind [reaches]
  rw [(matching_eq queues number text).1, dequeue_eq ho]
  dsimp only
  rw [hline, hf, ← hline, List.filter_filter]
  rfl

theorem Waits.next {fixes : List Fix} {queues : Queues} {number : Nat}
    (h : Waits fixes queues number) (text : Text) :
    Waits fixes (matching queues number text).2 (number + 1) := by
  have hmore : ∀ queue : List Fix, queue.filter (reaches (number + 1)) =
      (queue.filter (reaches number)).filter (reaches (number + 1)) := by
    intro queue
    rw [List.filter_filter]
    exact List.filter_congr fun fix _ => by grind [reaches]
  intro other
  obtain ⟨ho, hf⟩ := h other
  rw [(matching_eq queues number text).2]
  split
  next he =>
    subst he
    rw [dequeue_eq ho]
    refine ⟨ho.filter _, ?_⟩
    dsimp only
    rw [List.filter_filter, hmore (fixes.filter _), ← hf, ← hmore]
    exact List.filter_congr fun fix _ => by simp
  next => exact ⟨ho, by rw [hmore, hf, ← hmore]⟩

def sorted (fixes : List Fix) : List Fix :=
  fixes.mergeSort fun a b => a.line ≤ b.line

theorem line_le_trans (a b c : Fix) (hab : decide (a.line ≤ b.line) = true)
    (hbc : decide (b.line ≤ c.line) = true) : decide (a.line ≤ c.line) = true :=
  decide_eq_true (Nat.le_trans (of_decide_eq_true hab) (of_decide_eq_true hbc))

theorem line_le_total (a b : Fix) :
    (decide (a.line ≤ b.line) || decide (b.line ≤ a.line)) = true := by
  simp only [Bool.or_eq_true, decide_eq_true_eq]
  omega

theorem waits_index (fixes : List Fix) : Waits (sorted fixes) (index fixes) 1 := by
  intro text
  have hs : Ordered (sorted fixes) :=
    (List.pairwise_mergeSort line_le_trans line_le_total fixes).imp of_decide_eq_true
  rw [index, queueOf_foldl]
  exact ⟨hs.filter _, rfl⟩

theorem filter_fits_sorted (fixes : List Fix) (number : Nat) (text : Text) :
    (sorted fixes).filter (fits number text) = fixes.filter (fits number text) := by
  have hp : (fixes.filter (fits number text)).Pairwise
      fun a b => decide (a.line ≤ b.line) = true := by
    refine List.Pairwise.imp_of_mem (fun {a b} ha hb _ => ?_) (List.pairwise_of_forall fun _ _ => trivial)
    have ha' := (fits_iff.mp (List.mem_filter.mp ha).2).1
    have hb' := (fits_iff.mp (List.mem_filter.mp hb).2).1
    exact decide_eq_true (by omega)
  have hsub := List.sublist_mergeSort line_le_trans line_le_total hp List.filter_sublist
  have hsub' : (fixes.filter (fits number text)).Sublist
      ((sorted fixes).filter (fits number text)) := by
    have hh := hsub.filter (fits number text)
    rw [List.filter_filter] at hh
    simp only [Bool.and_self] at hh
    exact hh
  refine (hsub'.eq_of_length ?_).symm
  exact ((List.mergeSort_perm fixes _).filter _).length_eq.symm

theorem rewriteFrom_eq {fixes : List Fix} {queues : Queues} {number : Nat}
    (h : Waits fixes queues number) (lines : List Line) :
    rewriteFrom queues number lines =
      ⟨((lines.zipIdx number).flatMap fun e => fixes.filter (fits e.2 e.1.text)).length,
        (lines.zipIdx number).flatMap fun e =>
          rewriteLine (fixes.filter (fits e.2 e.1.text)) e.1⟩ := by
  induction lines generalizing queues number with
  | nil => rfl
  | cons line rest ih =>
    have hmatched := h.matched line.text
    have hnext := ih (h.next line.text)
    rw [rewriteFrom]
    cases hm : matching queues number line.text with
    | mk matched left =>
      rw [hm] at hmatched hnext
      simp only [hnext, ← hmatched, List.zipIdx_cons, List.flatMap_cons, List.length_append]

/-- Each line is rewritten by the fixes that fit it, in the order of the list. -/
theorem output_rewrite (lines : List Line) (fixes : List Fix) :
    (rewrite lines fixes).output = (lines.zipIdx 1).flatMap fun e =>
      rewriteLine (fixes.filter (fits e.2 e.1.text)) e.1 := by
  rw [rewrite, rewriteFrom_eq (waits_index fixes)]
  simp only [filter_fits_sorted]

theorem countP_or {α : Type} {p q : α → Bool} (h : ∀ a, p a = true → q a = false) (l : List α) :
    l.countP (fun a => p a || q a) = l.countP p + l.countP q := by
  induction l with
  | nil => rfl
  | cons a l ih =>
    rw [List.countP_cons, List.countP_cons, List.countP_cons, ih]
    by_cases hp : p a = true
    · simp [hp, h a hp]
      omega
    · simp [hp]
      omega

/-- A fix applies if it fits one of the lines. -/
theorem applied_rewrite (lines : List Line) (fixes : List Fix) :
    (rewrite lines fixes).applied =
      fixes.countP fun fix => (lines.zipIdx 1).any fun e => fits e.2 e.1.text fix := by
  rw [rewrite, rewriteFrom_eq (waits_index fixes)]
  simp only [filter_fits_sorted]
  generalize 1 = number
  induction lines generalizing number with
  | nil => simp
  | cons line rest ih =>
    have hlater : ∀ fix : Fix, fits number line.text fix = true →
        ((rest.zipIdx (number + 1)).any fun e => fits e.2 e.1.text fix) = false := by
      intro fix hfix
      apply Bool.eq_false_iff.mpr
      intro ha
      obtain ⟨e, he, hf⟩ := List.any_eq_true.mp ha
      have := List.le_snd_of_mem_zipIdx he
      have := (fits_iff.mp hf).1
      have := (fits_iff.mp hfix).1
      omega
    rw [List.zipIdx_cons, List.flatMap_cons, List.length_append, ih, ← List.countP_eq_length_filter]
    simp only [List.any_cons]
    rw [countP_or hlater]

end BlockSync.Repair
