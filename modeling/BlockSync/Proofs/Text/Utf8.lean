import BlockSync.Text.Utf8
import Mathlib.Data.List.Basic

/-! UTF-8 there and back. What decodes is exactly what encoding gives, so a text is its bytes and a
newline is its own byte. -/

namespace BlockSync.Text.Utf8

open String (utf8EncodeChar)

theorem toNat_lt (c : Char) : c.toNat < 0xD800 ∨ 0xDFFF < c.toNat ∧ c.toNat < 0x110000 :=
  c.valid

theorem ofNat_eq {a : UInt8} {n : Nat} (h : n = a.toNat) : UInt8.ofNat n = a := by
  rw [h]
  exact UInt8.ofNat_toNat

theorem toNat_ofNat {n : Nat} (h : n < 256) : (UInt8.ofNat n).toNat = n := by
  rw [UInt8.toNat_ofNat']
  exact Nat.mod_eq_of_lt h

theorem charOfNat_toNat {n : Nat} (h : n < 0xD800 ∨ 0xDFFF < n ∧ n < 0x110000) :
    (Char.ofNat n).toNat = n := by
  rw [Char.ofNat, dif_pos h]
  rfl

theorem encode_one {c : Char} (h : c.toNat ≤ 0x7F) : utf8EncodeChar c = [UInt8.ofNat c.toNat] :=
  if_pos h

theorem encode_two {c : Char} (h : 0x7F < c.toNat) (h' : c.toNat ≤ 0x7FF) :
    utf8EncodeChar c =
      [UInt8.ofNat (c.toNat / 64 % 32 + 0xC0), UInt8.ofNat (c.toNat % 64 + 0x80)] :=
  (if_neg (Nat.not_le.mpr h)).trans (if_pos h')

theorem encode_three {c : Char} (h : 0x7FF < c.toNat) (h' : c.toNat ≤ 0xFFFF) :
    utf8EncodeChar c =
      [UInt8.ofNat (c.toNat / 4096 % 16 + 0xE0), UInt8.ofNat (c.toNat / 64 % 64 + 0x80),
        UInt8.ofNat (c.toNat % 64 + 0x80)] :=
  have h₁ : ¬c.toNat ≤ 0x7F := by omega
  have h₂ : ¬c.toNat ≤ 0x7FF := by omega
  (if_neg h₁).trans ((if_neg h₂).trans (if_pos h'))

theorem encode_four {c : Char} (h : 0xFFFF < c.toNat) :
    utf8EncodeChar c =
      [UInt8.ofNat (c.toNat / 262144 % 8 + 0xF0), UInt8.ofNat (c.toNat / 4096 % 64 + 0x80),
        UInt8.ofNat (c.toNat / 64 % 64 + 0x80), UInt8.ofNat (c.toNat % 64 + 0x80)] :=
  have h₁ : ¬c.toNat ≤ 0x7F := by omega
  have h₂ : ¬c.toNat ≤ 0x7FF := by omega
  have h₃ : ¬c.toNat ≤ 0xFFFF := by omega
  (if_neg h₁).trans ((if_neg h₂).trans (if_neg h₃))

theorem character_eq {a : UInt8} {n : Nat} {bounds : Nat × Nat}
    (h : follow? a.toNat = some (n, bounds)) (rest : Bytes) :
    character a rest =
      (gather (leadBits a.toNat n) 1 n bounds rest).map fun value => (Char.ofNat value, n) := by
  rw [character, h]

theorem gather_cons {low high : Nat} {b : UInt8} (h : low ≤ b.toNat ∧ b.toNat ≤ high)
    (value seen n : Nat) (rest : Bytes) :
    gather value seen (n + 1) (low, high) (b :: rest) =
      gather (value * 64 + b.toNat % 64) (seen + 1) n (0x80, 0xBF) rest := by
  rw [gather, if_pos h]

theorem gather_zero (value seen : Nat) (bounds : Nat × Nat) (rest : Bytes) :
    gather value seen 0 bounds rest = .ok value := by
  rw [gather]

theorem follow?_one {a : Nat} (h : a < 0x80) : follow? a = some (0, 0x80, 0xBF) := by
  simp [follow?, h]

theorem follow?_two {a : Nat} (h : 0xC2 ≤ a) (h' : a < 0xE0) :
    follow? a = some (1, 0x80, 0xBF) := by
  have h₁ : ¬a < 0x80 := by omega
  have h₂ : ¬a < 0xC2 := by omega
  simp [follow?, h₁, h₂, h']

theorem follow?_three {a b : Nat} (h : 0xE0 ≤ a) (h' : a < 0xF0)
    (hb : 0x80 ≤ b ∧ b ≤ 0xBF) (hlow : a = 0xE0 → 0xA0 ≤ b) (hhigh : a = 0xED → b ≤ 0x9F) :
    ∃ low high, follow? a = some (2, low, high) ∧ low ≤ b ∧ b ≤ high := by
  have h₁ : ¬a < 0x80 := by omega
  have h₂ : ¬a < 0xC2 := by omega
  have h₃ : ¬a < 0xE0 := by omega
  by_cases he : a = 0xE0
  · exact ⟨0xA0, 0xBF, by simp [follow?, he], hlow he, hb.2⟩
  · by_cases hd : a = 0xED
    · exact ⟨0x80, 0x9F, by simp [follow?, hd], hb.1, hhigh hd⟩
    · exact ⟨0x80, 0xBF, by simp [follow?, h₁, h₂, h₃, he, hd, h'], hb.1, hb.2⟩

theorem follow?_four {a b : Nat} (h : 0xF0 ≤ a) (h' : a ≤ 0xF4)
    (hb : 0x80 ≤ b ∧ b ≤ 0xBF) (hlow : a = 0xF0 → 0x90 ≤ b) (hhigh : a = 0xF4 → b ≤ 0x8F) :
    ∃ low high, follow? a = some (3, low, high) ∧ low ≤ b ∧ b ≤ high := by
  have h₁ : ¬a < 0x80 := by omega
  have h₂ : ¬a < 0xC2 := by omega
  have h₃ : ¬a < 0xE0 := by omega
  have h₄ : ¬a = 0xE0 := by omega
  have h₅ : ¬a = 0xED := by omega
  have h₆ : ¬a < 0xF0 := by omega
  by_cases he : a = 0xF0
  · exact ⟨0x90, 0xBF, by simp [follow?, he], hlow he, hb.2⟩
  · by_cases hd : a = 0xF4
    · exact ⟨0x80, 0x8F, by simp [follow?, hd], hb.1, hhigh hd⟩
    · have h₇ : a < 0xF4 := by omega
      exact ⟨0x80, 0xBF, by simp [follow?, h₁, h₂, h₃, h₄, h₅, h₆, he, h₇], hb.1, hb.2⟩

def IsTail (b : UInt8) : Prop :=
  0x80 ≤ b.toNat ∧ b.toNat ≤ 0xBF

theorem character_one {a : UInt8} (h : a.toNat < 0x80) (rest : Bytes) :
    character a rest = .ok (Char.ofNat a.toNat, 0) := by
  rw [character_eq (follow?_one h), gather_zero]
  rfl

theorem character_two {a b : UInt8} (h : 0xC2 ≤ a.toNat) (h' : a.toNat < 0xE0) (hb : IsTail b)
    (rest : Bytes) :
    character a (b :: rest) = .ok (Char.ofNat (a.toNat % 32 * 64 + b.toNat % 64), 1) := by
  rw [character_eq (follow?_two h h'), gather_cons hb, gather_zero]
  rfl

theorem character_three {a b c : UInt8} (h : 0xE0 ≤ a.toNat) (h' : a.toNat < 0xF0) (hb : IsTail b)
    (hlow : a.toNat = 0xE0 → 0xA0 ≤ b.toNat) (hhigh : a.toNat = 0xED → b.toNat ≤ 0x9F)
    (hc : IsTail c) (rest : Bytes) :
    character a (b :: c :: rest) =
      .ok (Char.ofNat ((a.toNat % 16 * 64 + b.toNat % 64) * 64 + c.toNat % 64), 2) := by
  obtain ⟨low, high, hf, hbounds⟩ := follow?_three h h' hb hlow hhigh
  rw [character_eq hf, gather_cons hbounds, gather_cons hc, gather_zero]
  rfl

theorem character_four {a b c d : UInt8} (h : 0xF0 ≤ a.toNat) (h' : a.toNat ≤ 0xF4) (hb : IsTail b)
    (hlow : a.toNat = 0xF0 → 0x90 ≤ b.toNat) (hhigh : a.toNat = 0xF4 → b.toNat ≤ 0x8F)
    (hc : IsTail c) (hd : IsTail d) (rest : Bytes) :
    character a (b :: c :: d :: rest) = .ok (Char.ofNat
      (((a.toNat % 8 * 64 + b.toNat % 64) * 64 + c.toNat % 64) * 64 + d.toNat % 64), 3) := by
  obtain ⟨low, high, hf, hbounds⟩ := follow?_four h h' hb hlow hhigh
  rw [character_eq hf, gather_cons hbounds, gather_cons hc, gather_cons hd, gather_zero]
  rfl

theorem toNat_tail (n : Nat) : (UInt8.ofNat (n % 64 + 0x80)).toNat = n % 64 + 0x80 :=
  toNat_ofNat (by omega)

theorem isTail_ofNat (n : Nat) : IsTail (UInt8.ofNat (n % 64 + 0x80)) := by
  rw [IsTail, toNat_tail]
  omega

/-- The bytes of a character are read as that character, whatever stands behind them. -/
theorem character_encode (c : Char) (rest : Bytes) :
    ∃ a tail, utf8EncodeChar c = a :: tail ∧ character a (tail ++ rest) = .ok (c, tail.length) := by
  have hv := toNat_lt c
  by_cases h₁ : c.toNat ≤ 0x7F
  · refine ⟨_, _, encode_one h₁, ?_⟩
    have ha : (UInt8.ofNat c.toNat).toNat = c.toNat := toNat_ofNat (by omega)
    rw [List.nil_append, character_one (by omega), ha, Char.ofNat_toNat]
    rfl
  by_cases h₂ : c.toNat ≤ 0x7FF
  · refine ⟨_, _, encode_two (by omega) h₂, ?_⟩
    have ha : (UInt8.ofNat (c.toNat / 64 % 32 + 0xC0)).toNat = c.toNat / 64 % 32 + 0xC0 :=
      toNat_ofNat (by omega)
    have he : (c.toNat / 64 % 32 + 0xC0) % 32 * 64 + (c.toNat % 64 + 0x80) % 64 = c.toNat := by
      omega
    rw [List.cons_append, character_two (by omega) (by omega) (isTail_ofNat _), ha, toNat_tail, he,
      Char.ofNat_toNat]
    rfl
  by_cases h₃ : c.toNat ≤ 0xFFFF
  · refine ⟨_, _, encode_three (by omega) h₃, ?_⟩
    have ha : (UInt8.ofNat (c.toNat / 4096 % 16 + 0xE0)).toNat = c.toNat / 4096 % 16 + 0xE0 :=
      toNat_ofNat (by omega)
    have hb := toNat_tail (c.toNat / 64)
    have he : ((c.toNat / 4096 % 16 + 0xE0) % 16 * 64 + (c.toNat / 64 % 64 + 0x80) % 64) * 64 +
        (c.toNat % 64 + 0x80) % 64 = c.toNat := by omega
    rw [List.cons_append, List.cons_append, character_three (by omega) (by omega)
      (isTail_ofNat _) (by omega) (by omega) (isTail_ofNat _), ha, hb, toNat_tail, he,
      Char.ofNat_toNat]
    rfl
  · refine ⟨_, _, encode_four (by omega), ?_⟩
    have ha : (UInt8.ofNat (c.toNat / 262144 % 8 + 0xF0)).toNat = c.toNat / 262144 % 8 + 0xF0 :=
      toNat_ofNat (by omega)
    have hb := toNat_tail (c.toNat / 4096)
    have he : (((c.toNat / 262144 % 8 + 0xF0) % 8 * 64 + (c.toNat / 4096 % 64 + 0x80) % 64) * 64 +
        (c.toNat / 64 % 64 + 0x80) % 64) * 64 + (c.toNat % 64 + 0x80) % 64 = c.toNat := by omega
    rw [List.cons_append, List.cons_append, List.cons_append, character_four (by omega) (by omega)
      (isTail_ofNat _) (by omega) (by omega) (isTail_ofNat _) (isTail_ofNat _), ha, hb, toNat_tail,
      toNat_tail, he, Char.ofNat_toNat]
    rfl

theorem follow?_cases {a n low high : Nat} (h : follow? a = some (n, low, high)) :
    n = 0 ∧ a < 0x80 ∨
    n = 1 ∧ 0xC2 ≤ a ∧ a < 0xE0 ∧ low = 0x80 ∧ high = 0xBF ∨
    n = 2 ∧ 0xE0 ≤ a ∧ a < 0xF0 ∧ 0x80 ≤ low ∧ high ≤ 0xBF ∧ (a = 0xE0 → 0xA0 ≤ low) ∧
      (a = 0xED → high ≤ 0x9F) ∨
    n = 3 ∧ 0xF0 ≤ a ∧ a ≤ 0xF4 ∧ 0x80 ≤ low ∧ high ≤ 0xBF ∧ (a = 0xF0 → 0x90 ≤ low) ∧
      (a = 0xF4 → high ≤ 0x8F) := by
  unfold follow? at h
  repeat' split at h
  all_goals simp only [Option.some.injEq, Prod.mk.injEq, reduceCtorEq] at h
  all_goals omega

theorem gather_succ {value seen n low high v : Nat} {rest : Bytes}
    (h : gather value seen (n + 1) (low, high) rest = .ok v) :
    ∃ b more, rest = b :: more ∧ low ≤ b.toNat ∧ b.toNat ≤ high ∧
      gather (value * 64 + b.toNat % 64) (seen + 1) n (0x80, 0xBF) more = .ok v := by
  cases rest with
  | nil => simp [gather] at h
  | cons b more =>
    rw [gather] at h
    split at h
    next hb => exact ⟨b, more, rfl, hb.1, hb.2, h⟩
    next => simp at h

/-- A character is only read off its own bytes. -/
theorem encode_of_character {a : UInt8} {rest : Bytes} {c : Char} {n : Nat}
    (h : character a rest = .ok (c, n)) :
    utf8EncodeChar c = a :: rest.take n ∧ n ≤ rest.length := by
  unfold character at h
  split at h
  next => simp at h
  next m bounds hf =>
    obtain ⟨low, high⟩ := bounds
    cases hg : gather (leadBits a.toNat m) 1 m (low, high) rest with
    | error width => simp [hg, Except.map] at h
    | ok v =>
      rw [hg] at h
      obtain ⟨rfl, rfl⟩ : Char.ofNat v = c ∧ m = n := Prod.mk.inj (Except.ok.inj h)
      have ha := a.toNat_lt
      rcases follow?_cases hf with ⟨rfl, h₁⟩ | ⟨rfl, h₁, h₂, rfl, rfl⟩ |
        ⟨rfl, h₁, h₂, hl, hh, hlow, hhigh⟩ | ⟨rfl, h₁, h₂, hl, hh, hlow, hhigh⟩
      · rw [gather_zero] at hg
        obtain rfl : a.toNat = v := Except.ok.inj hg
        have hv := charOfNat_toNat (n := a.toNat) (by omega)
        refine ⟨?_, by simp⟩
        rw [encode_one (by omega), hv, ofNat_eq rfl, List.take_zero]
      · obtain ⟨b, more, rfl, hb, hb', hg⟩ := gather_succ hg
        rw [gather_zero] at hg
        obtain rfl : a.toNat % 32 * 64 + b.toNat % 64 = v := Except.ok.inj hg
        have hv := charOfNat_toNat (n := a.toNat % 32 * 64 + b.toNat % 64) (by omega)
        refine ⟨?_, by simp⟩
        rw [encode_two (by omega) (by omega), hv, ofNat_eq (a := a) (by omega),
          ofNat_eq (a := b) (by omega)]
        rfl
      · obtain ⟨b, more, rfl, hb, hb', hg⟩ := gather_succ hg
        obtain ⟨c, more, rfl, hc, hc', hg⟩ := gather_succ hg
        rw [gather_zero] at hg
        obtain rfl : (a.toNat % 16 * 64 + b.toNat % 64) * 64 + c.toNat % 64 = v :=
          Except.ok.inj hg
        have hv := charOfNat_toNat (n := (a.toNat % 16 * 64 + b.toNat % 64) * 64 + c.toNat % 64)
          (by omega)
        refine ⟨?_, by simp⟩
        rw [encode_three (by omega) (by omega), hv, ofNat_eq (a := a) (by omega),
          ofNat_eq (a := b) (by omega), ofNat_eq (a := c) (by omega)]
        rfl
      · obtain ⟨b, more, rfl, hb, hb', hg⟩ := gather_succ hg
        obtain ⟨c, more, rfl, hc, hc', hg⟩ := gather_succ hg
        obtain ⟨d, more, rfl, hd, hd', hg⟩ := gather_succ hg
        rw [gather_zero] at hg
        obtain rfl : ((a.toNat % 8 * 64 + b.toNat % 64) * 64 + c.toNat % 64) * 64 + d.toNat % 64 = v :=
          Except.ok.inj hg
        have hv := charOfNat_toNat
          (n := ((a.toNat % 8 * 64 + b.toNat % 64) * 64 + c.toNat % 64) * 64 + d.toNat % 64)
          (by omega)
        refine ⟨?_, by simp⟩
        rw [encode_four (by omega), hv, ofNat_eq (a := a) (by omega), ofNat_eq (a := b) (by omega),
          ofNat_eq (a := c) (by omega), ofNat_eq (a := d) (by omega)]
        rfl

theorem encode_cons (c : Char) (t : Text) : encode (c :: t) = utf8EncodeChar c ++ encode t :=
  List.flatMap_cons

theorem encode_append (t u : Text) : encode (t ++ u) = encode t ++ encode u :=
  List.flatMap_append

theorem length_encode (t : Text) : (encode t).length = t.byteLength := by
  induction t with
  | nil => rfl
  | cons c t ih => rw [encode_cons, List.length_append, ih, String.length_utf8EncodeChar, byteLength]

theorem decodeFrom_encode (index : Nat) (t : Text) : decodeFrom index (encode t) = .ok t := by
  induction t generalizing index with
  | nil => rw [encode, List.flatMap_nil, decodeFrom]
  | cons c t ih =>
    obtain ⟨a, tail, he, hc⟩ := character_encode c (encode t)
    rw [encode_cons, he, List.cons_append, decodeFrom, hc]
    dsimp only
    rw [List.drop_left, ih]
    rfl

@[simp]
theorem decode_encode (t : Text) : decode (encode t) = .ok t :=
  decodeFrom_encode 0 t

theorem encode_of_decodeFrom {index : Nat} {bytes : Bytes} {t : Text}
    (h : decodeFrom index bytes = .ok t) : encode t = bytes := by
  fun_induction decodeFrom index bytes generalizing t with
  | case1 =>
    obtain rfl := Except.ok.inj h
    rfl
  | case2 => simp at h
  | case3 index a rest c n hc ih =>
    cases hd : decodeFrom (index + n + 1) (rest.drop n) with
    | error fault => simp [hd, Except.map] at h
    | ok more =>
      rw [hd] at h
      obtain rfl : c :: more = t := Except.ok.inj h
      rw [encode_cons, (encode_of_character hc).1, ih hd, List.cons_append, List.take_append_drop]

theorem decode_eq_ok {bytes : Bytes} {t : Text} : decode bytes = .ok t ↔ bytes = encode t := by
  constructor
  · exact fun h => (encode_of_decodeFrom h).symm
  · rintro rfl
    exact decode_encode t

theorem newline_mem_encodeChar {c : Char} : (10 : UInt8) ∈ utf8EncodeChar c ↔ c = '\n' := by
  have hv := toNat_lt c
  have hten : ∀ {n}, n < 256 → n ≠ 10 → UInt8.ofNat n ≠ 10 := by
    intro n hn hne he
    have := congrArg UInt8.toNat he
    rw [toNat_ofNat hn] at this
    exact hne this
  constructor
  · intro h
    by_cases h₁ : c.toNat ≤ 0x7F
    · rw [encode_one h₁, List.mem_singleton] at h
      by_contra hc
      refine hten (by omega) (fun he => hc ?_) h.symm
      rw [← Char.ofNat_toNat c, he]
    · exfalso
      by_cases h₂ : c.toNat ≤ 0x7FF
      · rw [encode_two (by omega) h₂] at h
        simp only [List.mem_cons, List.not_mem_nil, or_false] at h
        rcases h with h | h <;> exact hten (by omega) (by omega) h.symm
      · by_cases h₃ : c.toNat ≤ 0xFFFF
        · rw [encode_three (by omega) h₃] at h
          simp only [List.mem_cons, List.not_mem_nil, or_false] at h
          rcases h with h | h | h <;> exact hten (by omega) (by omega) h.symm
        · rw [encode_four (by omega)] at h
          simp only [List.mem_cons, List.not_mem_nil, or_false] at h
          rcases h with h | h | h | h <;> exact hten (by omega) (by omega) h.symm
  · rintro rfl
    exact List.mem_singleton_self _

theorem newline_mem_encode {t : Text} : (10 : UInt8) ∈ encode t ↔ '\n' ∈ t := by
  simp only [encode, List.mem_flatMap, newline_mem_encodeChar, exists_eq_right]

end BlockSync.Text.Utf8
