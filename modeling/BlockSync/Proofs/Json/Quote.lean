import BlockSync.Json.Document
import BlockSync.Json.Reader
import BlockSync.Proofs.Checksum

/-! Texts and numbers inside JSON. A quoted text reads up to its closing mark and means the text that
was quoted, whatever its characters; the digits of a number mean the number. -/

namespace BlockSync.Json

/-- The numbers that a reader takes. -/
def InWord (n : Nat) : Prop :=
  n < 0x10000000000000000

instance (n : Nat) : Decidable (InWord n) :=
  inferInstanceAs (Decidable (n < _))

theorem head?_ofNat {n : Nat} (h : n ≠ 0) : (Text.ofNat n).head? ≠ some '0' := by
  induction n using Nat.strongRecOn with
  | ind n ih =>
    rw [Text.ofNat]
    by_cases hn : n < 10
    · rw [Nat.toDigits_of_lt_base hn, List.head?_cons]
      have hall : ∀ n < 10, n ≠ 0 → some n.digitChar ≠ some '0' := by decide
      exact hall n hn h
    · have hrest := ih (n / 10) (by omega) (by omega)
      obtain ⟨c, digits, hd⟩ := List.exists_cons_of_ne_nil
        (Nat.toDigits_ne_nil : Nat.toDigits 10 (n / 10) ≠ [])
      rw [Text.ofNat, hd] at hrest
      rwa [Nat.toDigits_of_base_le (by omega) (by omega), hd]

theorem natural?_ofNat {n : Nat} (h : InWord n) :
    natural? (Text.ofNat n) = some n := by
  have hvalue : (Text.ofNat n).foldl (fun n c => 10 * n + (c.toNat - 48)) 0 = n :=
    Nat.ofDigitChars_toDigits (by omega) (by omega)
  have hall : (Text.ofNat n).all Char.isDigit = true :=
    List.all_eq_true.mpr fun _ => Text.isDigit_of_mem_ofNat
  have hn : n < 0x10000000000000000 := h
  simp only [natural?, hvalue, hall, true_and, if_pos hn]

theorem quote_ofNat (n : Nat) : quote (Text.ofNat n) = Text.ofNat n := by
  have hdigit : ∀ c : Char, c.isDigit = true → quoteChar c = [c] := by
    intro c hc
    have hlow : ¬c.toNat < 32 := by
      have hge : 48 ≤ c.toNat := (Char.isDigit_iff_toNat.mp hc).1
      omega
    have hne : ∀ e : Char, e.isDigit = false → c ≠ e := by
      rintro e he rfl
      simp [hc] at he
    simp only [quoteChar, hne '"' rfl, hne '\\' rfl, hne '\x08' rfl, hne '\x0c' rfl, hne '\n' rfl,
      hne '\r' rfl, hne '\t' rfl, hlow, if_false]
  have hall : ∀ t : Text, (∀ c ∈ t, c.isDigit = true) → t.flatMap quoteChar = t := by
    intro t ht
    induction t with
    | nil => rfl
    | cons c t ih =>
      rw [List.flatMap_cons, hdigit c (ht c (by simp)), ih fun e he => ht e (by simp [he])]
      rfl
  exact hall _ fun _ => Text.isDigit_of_mem_ofNat

/-- A character is written as it is, or behind a backslash by a letter of its own or by the last two
digits of its number. -/
theorem quoteChar_cases (c : Char) :
    (∃ e, simpleEscape? e = some c ∧ quoteChar c = ['\\', e]) ∨
      (∃ a b : Nat, a < 2 ∧ b < 16 ∧ c = Char.ofNat (16 * a + b) ∧
        quoteChar c = ['\\', 'u', '0', '0', a.digitChar, b.digitChar]) ∨
      (c ≠ '"' ∧ c ≠ '\\' ∧ 32 ≤ c.toNat ∧ quoteChar c = [c]) := by
  unfold quoteChar
  split
  next h => exact .inl ⟨'"', by rw [h]; rfl, rfl⟩
  next hmark =>
    split
    next h => exact .inl ⟨'\\', by rw [h]; rfl, rfl⟩
    next hback =>
      split
      next h => exact .inl ⟨'b', by rw [h]; rfl, rfl⟩
      next =>
        split
        next h => exact .inl ⟨'f', by rw [h]; rfl, rfl⟩
        next =>
          split
          next h => exact .inl ⟨'n', by rw [h]; rfl, rfl⟩
          next =>
            split
            next h => exact .inl ⟨'r', by rw [h]; rfl, rfl⟩
            next =>
              split
              next h => exact .inl ⟨'t', by rw [h]; rfl, rfl⟩
              next =>
                split
                next h =>
                  refine .inr (.inl ⟨c.toNat / 16, c.toNat % 16, by omega, by omega, ?_, rfl⟩)
                  rw [Nat.div_add_mod, Char.ofNat_toNat]
                next h => exact .inr (.inr ⟨hmark, hback, Nat.le_of_not_lt h, rfl⟩)

theorem unit?_control {a b : Nat} (ha : a < 2) (hb : b < 16) (t : Text) :
    unit? ('0' :: '0' :: a.digitChar :: b.digitChar :: t) = some (16 * a + b) := by
  have hall : ∀ n < 16, hexDigit? n.digitChar = some n := by decide
  have hzero : hexDigit? '0' = some 0 := rfl
  simp only [unit?, hzero, hall a (by omega), hall b hb]
  simp

theorem unquote?_letter {e c : Char} (h : simpleEscape? e = some c) (t : Text) :
    unquote? ('\\' :: e :: t) = (unquote? t).map (c :: ·) := by
  have hu : e ≠ 'u' := by
    rintro rfl
    simp [simpleEscape?] at h
  have hescaped : escaped? (e :: t) = some (c, 1) := by
    rw [escaped?, h]
    · rfl
    · exact hu
  rw [unquote?, if_pos rfl, hescaped]
  rfl

theorem unquote?_control {a b : Nat} (ha : a < 2) (hb : b < 16) (t : Text) :
    unquote? ('\\' :: 'u' :: '0' :: '0' :: a.digitChar :: b.digitChar :: t) =
      (unquote? t).map (Char.ofNat (16 * a + b) :: ·) := by
  rw [unquote?, if_pos rfl]
  simp only [escaped?, unit?_control ha hb]
  rw [if_neg (by omega), if_neg (by omega)]
  rfl

theorem unquote?_plain {c : Char} (h : c ≠ '\\') (t : Text) :
    unquote? (c :: t) = (unquote? t).map (c :: ·) := by
  rw [unquote?, if_neg h]

theorem unquote?_quote (t : Text) : unquote? (quote t) = some t := by
  induction t with
  | nil => rw [quote, List.flatMap_nil, unquote?]
  | cons c rest ih =>
    have hcons : quote (c :: rest) = quoteChar c ++ quote rest := List.flatMap_cons
    rw [hcons]
    rcases quoteChar_cases c with ⟨e, he, hq⟩ | ⟨a, b, ha, hb, hc, hq⟩ | ⟨-, hback, -, hq⟩
    · rw [hq, List.cons_append, List.singleton_append, unquote?_letter he, ih]
      rfl
    · rw [hq]
      simp only [List.cons_append, List.nil_append]
      rw [unquote?_control ha hb, ih, ← hc]
      rfl
    · rw [hq, List.singleton_append, unquote?_plain hback, ih]
      rfl

theorem readString_letter {e c : Char} (h : simpleEscape? e = some c) (t : Text) :
    readString ('\\' :: e :: t) = (readString t).map fun r => ('\\' :: e :: r.1, r.2) := by
  rw [readString, if_pos (.inl (by rw [h]; rfl))]

theorem readString_plain {c : Char} (hmark : c ≠ '"') (hback : c ≠ '\\') (h : 32 ≤ c.toNat)
    (t : Text) : readString (c :: t) = (readString t).map fun r => (c :: r.1, r.2) := by
  rw [readString]
  · rw [if_neg]
    rintro (hlow | hc)
    · omega
    · exact hback hc
  · exact hmark
  · exact fun _ _ hc => absurd hc hback

theorem readString_control {a b : Nat} (ha : a < 2) (hb : b < 16) (t : Text) :
    readString ('\\' :: 'u' :: '0' :: '0' :: a.digitChar :: b.digitChar :: t) =
      (readString t).map fun r =>
        ('\\' :: 'u' :: '0' :: '0' :: a.digitChar :: b.digitChar :: r.1, r.2) := by
  have hdigit : ∀ n < 16, n.digitChar ≠ '"' ∧ n.digitChar ≠ '\\' ∧ 32 ≤ n.digitChar.toNat := by
    decide
  obtain ⟨ha₁, ha₂, ha₃⟩ := hdigit a (by omega)
  obtain ⟨hb₁, hb₂, hb₃⟩ := hdigit b hb
  rw [readString, if_pos (.inr ⟨rfl, by rw [unit?_control ha hb]; rfl⟩),
    readString_plain (by decide) (by decide) (by decide),
    readString_plain (by decide) (by decide) (by decide), readString_plain ha₁ ha₂ ha₃,
    readString_plain hb₁ hb₂ hb₃]
  cases readString t <;> rfl

theorem readString_quote (t rest : Text) :
    readString (quote t ++ '"' :: rest) = some (quote t, rest) := by
  induction t with
  | nil => rfl
  | cons c t ih =>
    have hcons : quote (c :: t) = quoteChar c ++ quote t := List.flatMap_cons
    rw [hcons, List.append_assoc]
    rcases quoteChar_cases c with ⟨e, he, hq⟩ | ⟨a, b, ha, hb, hc, hq⟩ | ⟨hmark, hback, hlow, hq⟩
    · rw [hq, List.cons_append, List.singleton_append, readString_letter he, ih]
      rfl
    · rw [hq]
      simp only [List.cons_append, List.nil_append]
      rw [readString_control ha hb, ih]
      rfl
    · rw [hq, List.singleton_append, readString_plain hmark hback hlow, ih]
      rfl

end BlockSync.Json
