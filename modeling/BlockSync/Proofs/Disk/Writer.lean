import BlockSync.Disk.Writer
import BlockSync.Proofs.Disk.Root

/-! A file that is written first and then takes its place: the names of such files, and what it
does to a disk to put one there, write it and take it away. -/

namespace BlockSync.Disk

open Text.Utf8 (Bytes)

theorem length_temporaryName (stamp : Nat) (name : Text) :
    (Writer.temporaryName stamp name).length = name.length + (Text.ofNat stamp).length + 6 := by
  have hdot : (("." : String) : Text).length = 1 := rfl
  have hlast : ((".tmp" : String) : Text).length = 4 := rfl
  simp only [Writer.temporaryName, List.length_append, hdot, hlast]
  omega

theorem byteLength_le_temporaryName (stamp : Nat) (name : Text) :
    name.byteLength ≤ (Writer.temporaryName stamp name).byteLength := by
  simp only [Writer.temporaryName, Text.byteLength_append]
  omega

namespace Modes

theorem and_not_eq {mode mask : Mode} (h : mode &&& mask = 0) : mode &&& ~~~mask = mode := by
  ext i hi
  have hbit := congrArg (·[i]) h
  grind

variable (m : Modes) (mode : Mode)

theorem worn_worn : m.worn (m.worn mode) = m.worn mode := by
  unfold worn
  by_cases hl : m.lasting = true
  · simp [hl]
  · by_cases hx : mode &&& 0o010#12 = 0
    · have hkept : mode &&& ~~~0o4000#12 &&& 0o010#12 = 0 := by simpa [BitVec.and_assoc] using hx
      rw [if_neg hl, if_neg hl, if_pos hx, if_pos hkept, BitVec.and_assoc, BitVec.and_self]
    · have hkept : mode &&& ~~~0o6000#12 &&& 0o010#12 ≠ 0 := by simpa [BitVec.and_assoc] using hx
      rw [if_neg hl, if_neg hl, if_neg hx, if_neg hkept, BitVec.and_assoc, BitVec.and_self]

/-- Writing in parts wears a mode as writing all at once does. -/
theorem kept_append (old new : Bytes) :
    m.kept (old ++ new) mode = m.kept new (m.kept old mode) := by
  unfold kept
  by_cases ho : old = []
  · simp [ho]
  · by_cases hn : new = []
    · simp [hn]
    · simp [ho, hn, worn_worn]

/-- Everyone may read, write and execute what they might before, and the sticky bit stays. -/
theorem kept_and (bytes : Bytes) : m.kept bytes mode &&& 0o1777#12 = mode &&& 0o1777#12 := by
  unfold kept worn
  split
  next => rfl
  next =>
    split
    next => rfl
    next => split <;> simp [BitVec.and_assoc]

/-- All bits stay where the process may keep them, and where there is nothing to be written or to be
lost. -/
theorem kept_eq {bytes : Bytes} (h : m.lasting = true ∨ bytes = [] ∨ mode &&& 0o6000#12 = 0) :
    m.kept bytes mode = mode := by
  unfold kept worn
  rcases h with hl | he | hset
  · simp [hl]
  · simp [he]
  · have huser : mode &&& 0o4000#12 = 0 := by
      have hpart : mode &&& 0o4000#12 = mode &&& 0o6000#12 &&& 0o4000#12 := by
        simp [BitVec.and_assoc]
      rw [hpart, hset]
      rfl
    rw [and_not_eq huser, and_not_eq hset]
    simp

end Modes

theorem entry?_set {d : Disk} {place : Place} (h : place ≠ []) (e : Entry) (other : Place) :
    entry? (d.set place e) other = if other = place then some e else d.entry? other := by
  by_cases ho : other = []
  · subst ho
    rw [if_neg (Ne.symm h)]
    rfl
  · rw [entry?_of_ne ho, entry?_of_ne ho]
    exact SortedMap.find?_insert ..

theorem entry?_remove {d : Disk} {place : Place} (h : place ≠ []) (other : Place) :
    entry? (d.remove place) other = if other = place then none else d.entry? other := by
  by_cases ho : other = []
  · subst ho
    rw [if_neg (Ne.symm h)]
    rfl
  · rw [entry?_of_ne ho, entry?_of_ne ho]
    exact SortedMap.find?_erase ..

theorem set_set (d : Disk) (place : Place) (e e' : Entry) :
    (d.set place e).set place e' = d.set place e' := by
  refine ext_entries (fun other => ?_) rfl rfl rfl
  simp only [set, SortedMap.find?_insert]
  split <;> rfl

theorem remove_set {d : Disk} {place : Place} (hfree : d.entry? place = none) (e : Entry) :
    (d.set place e).remove place = d := by
  have hne : place ≠ [] := by
    rintro rfl
    simp at hfree
  rw [entry?_of_ne hne] at hfree
  refine ext_entries (fun other => ?_) rfl rfl rfl
  simp only [set, remove, SortedMap.find?_insert, SortedMap.find?_erase]
  split
  next ho => rw [ho, hfree]
  next => rfl

theorem write_set (d : Disk) (q : Path) (path : Text) {place : Place} (hne : place ≠ [])
    (mode : Mode) (old new : Bytes) :
    Writer.write ⟨q, path, place⟩ (d.set place (.file old mode)) new =
      d.set place (.file (old ++ new) (d.modes.kept new mode)) := by
  rw [Writer.write, entry?_set hne, if_pos rfl]
  exact set_set ..

theorem foldl_write_set (d : Disk) (q : Path) (path : Text) {place : Place} (hne : place ≠ [])
    (mode : Mode) (old : Bytes) (chunks : List Bytes) :
    chunks.foldl (Writer.write ⟨q, path, place⟩) (d.set place (.file old mode)) =
      d.set place (.file (old ++ chunks.flatten) (d.modes.kept chunks.flatten mode)) := by
  induction chunks generalizing old mode with
  | nil => simp [Modes.kept]
  | cons chunk chunks ih =>
    rw [List.foldl_cons, write_set d q path hne, ih, List.flatten_cons, List.append_assoc,
      d.modes.kept_append]

theorem not_mem_temporaryName (stamp : Nat) {name : Text} {c : Char} (hc : c ∉ name)
    (hd : c.isDigit = false) (ht : c ∉ (".tmp" : Text)) : c ∉ Writer.temporaryName stamp name := by
  have hdigits : ∀ c ∈ Text.ofNat stamp, c.isDigit = true := fun _ => Text.isDigit_of_mem_ofNat
  have hdot : c ∉ ("." : Text) := fun hm => ht (List.mem_cons.mpr (.inl (List.mem_singleton.mp hm)))
  intro hm
  simp only [Writer.temporaryName, List.mem_append] at hm
  rcases hm with (((hm | hm) | hm) | hm) | hm
  · exact hdot hm
  · exact hc hm
  · exact hdot hm
  · simp [hdigits c hm] at hd
  · exact ht hm

theorem plain_temporaryName (stamp : Nat) {name : Text} (h : '/' ∉ name) :
    Path.Plain (Writer.temporaryName stamp name) := by
  have hlen := length_temporaryName stamp name
  refine ⟨?_, ?_, ?_, not_mem_temporaryName stamp h (by decide) (by decide)⟩
  · rintro he
    simp [he] at hlen
  · rintro he
    simp [he] at hlen
  · rintro he
    simp [he] at hlen

end BlockSync.Disk
