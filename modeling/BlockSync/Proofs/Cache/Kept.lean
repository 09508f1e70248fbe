import BlockSync.Proofs.Block.Closed
import BlockSync.Proofs.Cache.Problems

/-! The block that a file keeps for an id among those that it completes: the last one, and the only
one unless a duplicate is reported. -/

namespace BlockSync.Scan

open Block (Event completed)

theorem exists_kept? {blocks : List Block} {b : Block} (hb : b ∈ blocks)
    (ht : b.targets.isEmpty = false) :
    ∃ c, kept? blocks b.id = some c ∧ c ∈ blocks ∧ c.id = b.id ∧ c.targets.isEmpty = false := by
  have hmem : b ∈ blocks.filter fun x => x.id == b.id && !x.targets.isEmpty :=
    List.mem_filter.mpr ⟨hb, by simp [ht]⟩
  obtain ⟨c, hc⟩ := Option.isSome_iff_exists.mp
    (List.getLast?_isSome.mpr (List.ne_nil_of_mem hmem))
  obtain ⟨hcb, hcond⟩ := List.mem_filter.mp (List.mem_of_getLast? hc)
  have hcond' : c.id = b.id ∧ c.targets.isEmpty = false := by simpa using hcond
  exact ⟨c, by rw [kept?, hc]; rfl, hcb, hcond'⟩

theorem endLine_le_of_kept? {blocks : List Block} (hp : blocks.Pairwise (·.endLine < ·.endLine))
    {b c : Block} (hb : b ∈ blocks) (ht : b.targets.isEmpty = false)
    (hc : kept? blocks b.id = some c) : b.endLine ≤ c.endLine := by
  have hmem : b ∈ blocks.filter fun x => x.id == b.id && !x.targets.isEmpty :=
    List.mem_filter.mpr ⟨hb, by simp [ht]⟩
  obtain ⟨last, hlast⟩ := Option.isSome_iff_exists.mp
    (List.getLast?_isSome.mpr (List.ne_nil_of_mem hmem))
  obtain rfl : last = c := by
    rw [kept?, hlast] at hc
    exact Option.some.inj hc
  obtain ⟨front, hf⟩ := List.getLast?_eq_some_iff.mp hlast
  have hpf := hp.filter fun x => x.id == b.id && !x.targets.isEmpty
  rw [hf] at hpf hmem
  rcases List.mem_append.mp hmem with hm | hm
  · exact Nat.le_of_lt ((List.pairwise_append.mp hpf).2.2 b hm last (by simp))
  · rw [List.mem_singleton.mp hm]

variable {d : Disk} {at_ : Setting}

theorem mem_problemsOf_of_block {events pre post : List Event} {b : Block}
    (he : events = pre ++ .completed b :: post) {x : Diagnostic}
    (hx : x ∈ blockProblems d at_ (declares (completed pre) b.id) b) :
    x ∈ problemsOf d at_ [] events :=
  mem_problemsOf.mpr (.inr ⟨pre, b, post, he, hx⟩)

theorem duplicateMarker_mem {events pre post : List Event} {b c : Block}
    (he : events = pre ++ .completed b :: post) (hc : Event.completed c ∈ pre)
    (hid : c.id = b.id) (hb : b.targets.isEmpty = false) (hct : c.targets.isEmpty = false) :
    Diagnostic.duplicateMarker b.firstLine b.id ∈ problemsOf d at_ [] events := by
  have hd : declares (completed pre) b.id = true :=
    List.any_eq_true.mpr ⟨c, Block.mem_completed.mpr hc, by simp [hid, hct]⟩
  exact mem_problemsOf_of_block he (mem_blockProblems.mpr ⟨hb, .inr (.inl ⟨hd, rfl⟩)⟩)

theorem selfTargeting_mem {events : List Event} {b : Block} (hb : b ∈ completed events) {n : Nat}
    {t : Target} (ht : b.targets.find? n = some t) {text : Text} (hk : t.kind = .file text)
    (hs : targetsSelf d at_.path text = true) :
    Diagnostic.selfTargeting n b.id ∈ problemsOf d at_ [] events := by
  obtain ⟨pre, post, he⟩ := List.append_of_mem (Block.mem_completed.mp hb)
  have hmem := SortedMap.mem_entries_iff.mpr ht
  have hne : b.targets.isEmpty = false := by
    apply Bool.eq_false_iff.mpr
    intro hempty
    simp [SortedMap.isEmpty_iff.mp hempty] at hmem
  exact mem_problemsOf_of_block he
    (mem_blockProblems.mpr ⟨hne, .inl (mem_selfTargets.mpr ⟨(n, t), hmem, text, hk, hs, rfl⟩)⟩)

/-- Unless a duplicate is reported, each block with declarations is kept. -/
theorem kept?_of_no_duplicate {events : List Event}
    (hno : ∀ line id, Diagnostic.duplicateMarker line id ∉ problemsOf d at_ [] events) {b : Block}
    (hb : b ∈ completed events) (ht : b.targets.isEmpty = false) :
    kept? (completed events) b.id = some b := by
  obtain ⟨c, hc, hcb, hid, hct⟩ := exists_kept? hb ht
  by_cases hbc : b = c
  · rwa [← hbc] at hc
  · exfalso
    obtain ⟨pre, post, he⟩ := List.append_of_mem (Block.mem_completed.mp hcb)
    have hbe : Event.completed b ∈ pre ++ Event.completed c :: post :=
      he ▸ Block.mem_completed.mp hb
    rcases List.mem_append.mp hbe with hm | hm
    · exact hno _ _ (duplicateMarker_mem he hm hid.symm hct ht)
    · rcases List.mem_cons.mp hm with hm | hm
      · exact hbc (Event.completed.inj hm)
      · obtain ⟨middle, last, rfl⟩ := List.append_of_mem hm
        have hsplit : events = (pre ++ .completed c :: middle) ++ .completed b :: last := by
          rw [he]
          simp
        exact hno _ _ (duplicateMarker_mem hsplit (by simp) hid ht hct)

end BlockSync.Scan
