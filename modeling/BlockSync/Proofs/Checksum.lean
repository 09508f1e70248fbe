import BlockSync.Checksum
import BlockSync.Proofs.Text
import BlockSync.Proofs.Text.Words

/-! How checksums are spelled. All but the one of a block without content are numbers, so they can
stand in a tag. -/

namespace BlockSync.Checksum

open Text (Solid)

/-- A checksum that a tag can record, or that it records by leaving it out. -/
def Recordable (checksum : Text) : Prop :=
  checksum = absent ∨ checksum ≠ [] ∧ Solid checksum

theorem isBlank_of_isDigit {c : Char} (h : c.isDigit = true) : Text.isBlank c = false := by
  have hval : 48 ≤ c.val.toNat ∧ c.val.toNat ≤ 57 := by
    simpa [Char.isDigit, UInt32.le_iff_toNat_le] using h
  have hnat : c.toNat = c.val.toNat := rfl
  simp only [Text.isBlank, hnat, Bool.or_eq_false_iff, Bool.and_eq_false_iff, beq_eq_false_iff_ne,
    decide_eq_false_iff_not]
  omega

theorem number_ofNat (n : Nat) : Text.ofNat n ≠ [] ∧ Solid (Text.ofNat n) :=
  ⟨Nat.toDigits_ne_nil, fun _ hc =>
    isBlank_of_isDigit (Text.isDigit_of_mem_ofNat hc)⟩

theorem recordable_content (lines : List Text) : Recordable (content lines) := by
  unfold content
  split
  next => exact .inl rfl
  next => exact .inr (number_ofNat _)

theorem recordable_self (lines : List Text) (relative : Text) : Recordable (self lines relative) :=
  .inr (number_ofNat _)

end BlockSync.Checksum
