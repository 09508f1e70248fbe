import BlockSync.Text
import Mathlib.Data.List.Basic

/-! Cutting text at its last mark and behind a lead, the bytes that it takes, and the digits of
numbers. -/

namespace BlockSync.Text

theorem cutLast_eq_none {mark : Char} {t : Text} (h : mark ∉ t) : cutLast mark t = none := by
  induction t with
  | nil => rfl
  | cons c t ih =>
    have hc : c ≠ mark := fun he => h (by simp [he])
    have ht : mark ∉ t := fun hm => h (List.mem_cons_of_mem _ hm)
    simp [cutLast, ih ht, hc]

theorem cutLast_append {mark : Char} {t : Text} (h : mark ∉ t) (head : Text) :
    cutLast mark (head ++ mark :: t) = some (head, t) := by
  induction head with
  | nil => simp [cutLast, cutLast_eq_none h]
  | cons c head ih => simp [cutLast, ih]

theorem after?_eq_some {lead t rest : Text} : after? lead t = some rest ↔ t = lead ++ rest := by
  induction lead generalizing t with
  | nil => simp [after?, List.isPrefixOf?]
  | cons c lead ih =>
    cases t with
    | nil => simp [after?, List.isPrefixOf?]
    | cons c' t =>
      have hh : List.isPrefixOf? lead t = some rest ↔ t = lead ++ rest := ih
      by_cases he : c = c'
      · subst he
        simp [after?, List.isPrefixOf?, hh]
      · simp [after?, List.isPrefixOf?, he, Ne.symm he]

theorem byteLength_append (t u : Text) : (t ++ u).byteLength = t.byteLength + u.byteLength := by
  induction t with
  | nil => simp [byteLength]
  | cons c t ih =>
    simp only [List.cons_append, byteLength, ih]
    omega

theorem byteLength_pos {t : Text} (h : t ≠ []) : 0 < t.byteLength := by
  obtain ⟨c, rest, rfl⟩ := List.exists_cons_of_ne_nil h
  have hc := c.utf8Size_pos
  simp only [byteLength]
  omega

theorem isDigit_of_mem_ofNat {n : Nat} {c : Char} (h : c ∈ ofNat n) : c.isDigit = true :=
  Nat.isDigit_of_mem_toDigits (by omega) (by omega) h

theorem ofNat_inj {n m : Nat} (h : ofNat n = ofNat m) : n = m := by
  have hdigits : Nat.toDigits 10 n = Nat.toDigits 10 m := h
  calc
    n = Nat.ofDigitChars 10 (Nat.toDigits 10 n) 0 := Nat.ofDigitChars_ten_toDigits.symm
    _ = Nat.ofDigitChars 10 (Nat.toDigits 10 m) 0 := by rw [hdigits]
    _ = m := Nat.ofDigitChars_ten_toDigits

end BlockSync.Text
