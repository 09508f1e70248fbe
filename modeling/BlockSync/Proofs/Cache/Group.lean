import BlockSync.Cache.Build
import BlockSync.Proofs.Cache.Scan
import BlockSync.Proofs.Disk.Canonical

/-! Groups of cache entries that are one file. The entry under the path without links is what a
scan told, every other entry of the group is a copy of it that may not be written, and the shared
list of names is the list of the group's keys. -/

namespace BlockSync.Cache

/-- What the entries of a cache have to do with each other and with the disk. -/
structure Grouped (d : Disk) (o : Options) (c : Cache) : Prop where
  spelled : ∀ {k info}, c.find? k = some info → (Path.ofText k).text = k
  unresolved : ∀ {k info cause}, c.find? k = some info → d.canonical (.ofText k) = .error cause →
    ∃ readOnly, info = unresolvable (.ofText k) readOnly cause
  scanned : ∀ {q entry}, c.find? q.text = some entry → d.canonical q = .ok q →
    ∃ readOnly, entry = { (Scan.scan d o q readOnly).info with aliases := entry.aliases }
  shared : ∀ {k info q}, c.find? k = some info → d.canonical (.ofText k) = .ok q →
    ∃ entry, c.find? q.text = some entry ∧ (k ≠ q.text → info = { entry with readOnly := true })
  nodup : ∀ {q entry}, c.find? q.text = some entry → d.canonical q = .ok q →
    entry.aliases.Nodup
  mem_aliases : ∀ {q entry k}, c.find? q.text = some entry → d.canonical q = .ok q →
    (k ∈ entry.aliases ↔ c.contains k = true ∧ d.canonical (.ofText k) = .ok q)

theorem Grouped.empty (d : Disk) (o : Options) : Grouped d o ∅ := by
  constructor <;> simp

variable {d : Disk} {o : Options} {c : Cache}

theorem Grouped.insert_unresolvable (hd : d.WellFormed) (h : Grouped d o c) {p : Path}
    {cause : Disk.Cause} (hp : d.canonical p = .error cause) (readOnly : Bool) :
    Grouped d o (c.insert p.text (unresolvable p readOnly cause)) := by
  have hne : ∀ {q : Path}, d.canonical q = .ok q → q.text ≠ p.text := by
    intro q hq he
    rw [Path.eq_of_text he, hp] at hq
    simp at hq
  constructor
  · intro k info hk
    rw [SortedMap.find?_insert] at hk
    split at hk
    next he => rw [he, Path.ofText_text]
    next => exact h.spelled hk
  · intro k info cause' hk he
    rw [SortedMap.find?_insert] at hk
    split at hk
    next hkp =>
      subst hkp
      rw [Path.ofText_text, hp] at he
      obtain rfl : cause = cause' := by simpa using he
      exact ⟨readOnly, by rw [Path.ofText_text]; exact (Option.some.inj hk).symm⟩
    next => exact h.unresolved hk he
  · intro q entry hq hc
    rw [SortedMap.find?_insert_of_ne _ _ (hne hc)] at hq
    exact h.scanned hq hc
  · intro k info q hk hq
    rw [SortedMap.find?_insert] at hk
    split at hk
    next hkp =>
      rw [hkp, Path.ofText_text, hp] at hq
      simp at hq
    next hkp =>
      obtain ⟨entry, he, hs⟩ := h.shared hk hq
      exact ⟨entry, by rwa [SortedMap.find?_insert_of_ne _ _ (hne (hd.canonical_canonical hq))], hs⟩
  · intro q entry hq hc
    rw [SortedMap.find?_insert_of_ne _ _ (hne hc)] at hq
    exact h.nodup hq hc
  · intro q entry k hq hc
    rw [SortedMap.find?_insert_of_ne _ _ (hne hc)] at hq
    rw [h.mem_aliases hq hc, SortedMap.contains_insert]
    constructor
    · exact fun ⟨hk, hkq⟩ => ⟨.inr hk, hkq⟩
    · rintro ⟨rfl | hk, hkq⟩
      · rw [Path.ofText_text, hp] at hkq
        simp at hkq
      · exact ⟨hk, hkq⟩

theorem Grouped.contains_canonical (h : Grouped d o c) {k : Text} {q : Path}
    (hk : c.contains k = true) (hq : d.canonical (.ofText k) = .ok q) :
    c.contains q.text = true := by
  obtain ⟨info, hk⟩ := SortedMap.contains_iff.mp hk
  obtain ⟨entry, he, -⟩ := h.shared hk hq
  exact SortedMap.contains_iff.mpr ⟨entry, he⟩

theorem Grouped.insert_scanned (h : Grouped d o c) {q : Path} (hq : d.canonical q = .ok q)
    (hc : ¬c.contains q.text = true) (readOnly : Bool) :
    Grouped d o (c.insert q.text (Scan.scan d o q readOnly).info) := by
  have hnone : ∀ {k}, c.contains k = true → d.canonical (.ofText k) ≠ .ok q :=
    fun hk hkq => hc (h.contains_canonical hk hkq)
  have halias : (Scan.scan d o q readOnly).info.aliases = [q.text] := by rw [Scan.scan_info]
  constructor
  · intro k info hk
    rw [SortedMap.find?_insert] at hk
    split at hk
    next he => rw [he, Path.ofText_text]
    next => exact h.spelled hk
  · intro k info cause hk he
    rw [SortedMap.find?_insert] at hk
    split at hk
    next hkq =>
      rw [hkq, Path.ofText_text, hq] at he
      simp at he
    next => exact h.unresolved hk he
  · intro q' entry hq' hc'
    rw [SortedMap.find?_insert] at hq'
    split at hq'
    next he =>
      obtain rfl := Path.eq_of_text he
      exact ⟨readOnly, by rw [← Option.some.inj hq']⟩
    next => exact h.scanned hq' hc'
  · intro k info q' hk hq'
    rw [SortedMap.find?_insert] at hk
    split at hk
    next hkq =>
      rw [hkq, Path.ofText_text, hq] at hq'
      obtain rfl : q = q' := by simpa using hq'
      exact ⟨_, SortedMap.find?_insert_self .., fun hne => absurd hkq hne⟩
    next hkq =>
      obtain ⟨entry, he, hs⟩ := h.shared hk hq'
      refine ⟨entry, ?_, hs⟩
      rw [SortedMap.find?_insert_of_ne _ _ fun he' => ?_, he]
      rw [Path.eq_of_text he'] at hq'
      exact hnone (SortedMap.contains_iff.mpr ⟨info, hk⟩) hq'
  · intro q' entry hq' hc'
    rw [SortedMap.find?_insert] at hq'
    split at hq'
    next => simp [← Option.some.inj hq', halias]
    next => exact h.nodup hq' hc'
  · intro q' entry k hq' hc'
    rw [SortedMap.find?_insert] at hq'
    rw [SortedMap.contains_insert]
    split at hq'
    next he =>
      obtain rfl := Path.eq_of_text he
      rw [← Option.some.inj hq', halias, List.mem_singleton]
      constructor
      · rintro rfl
        exact ⟨.inl rfl, by rwa [Path.ofText_text]⟩
      · rintro ⟨hk | hk, hkq⟩
        · exact hk
        · exact absurd hkq (hnone hk)
    next hne =>
      rw [h.mem_aliases hq' hc']
      constructor
      · exact fun ⟨hk, hkq⟩ => ⟨.inr hk, hkq⟩
      · rintro ⟨rfl | hk, hkq⟩
        · rw [Path.ofText_text, hq] at hkq
          obtain rfl : q = q' := by simpa using hkq
          exact absurd rfl hne
        · exact ⟨hk, hkq⟩

/-- The names of a file once one more is known. -/
def namesWith (entry : FileInfo) (name : Text) : List Text :=
  if entry.isAlias name then entry.aliases else entry.aliases ++ [name]

theorem mem_namesWith {entry : FileInfo} {name k : Text} :
    k ∈ namesWith entry name ↔ k ∈ entry.aliases ∨ k = name := by
  unfold namesWith FileInfo.isAlias
  split
  next h =>
    have hm : name ∈ entry.aliases := by simpa using h
    exact ⟨.inl, fun hk => hk.elim (fun hk => hk) fun hk => hk ▸ hm⟩
  next => simp

theorem nodup_namesWith {entry : FileInfo} {name : Text} (h : entry.aliases.Nodup) :
    (namesWith entry name).Nodup := by
  unfold namesWith FileInfo.isAlias
  split
  next => exact h
  next hn =>
    have hm : name ∉ entry.aliases := by simpa using hn
    refine List.nodup_append.mpr ⟨h, by simp, ?_⟩
    rintro a ha b hb rfl
    exact hm (List.mem_singleton.mp hb ▸ ha)

theorem find?_addAlias {canonical name : Text} {entry : FileInfo} (hne : canonical ≠ name)
    (he : c.find? canonical = some entry) (k : Text) :
    (c.addAlias canonical name).find? k =
      if k = name then some { entry with aliases := namesWith entry name, readOnly := true }
      else (c.find? k).map fun info =>
        if k = canonical ∨ k ∈ namesWith entry name then
          { info with aliases := namesWith entry name }
        else info := by
  simp only [addAlias, if_neg hne, he]
  rw [SortedMap.find?_insert, SortedMap.find?_map]
  rfl

theorem contains_addAlias {canonical name : Text} (hne : canonical ≠ name)
    (hc : c.contains canonical = true) (k : Text) :
    (c.addAlias canonical name).contains k = true ↔ k = name ∨ c.contains k = true := by
  obtain ⟨entry, he⟩ := SortedMap.contains_iff.mp hc
  simp only [SortedMap.contains, find?_addAlias hne he]
  by_cases hk : k = name <;> simp [hk]

theorem Grouped.canonical_of_mem_namesWith (h : Grouped d o c) {p q : Path} {entry : FileInfo}
    (hp : d.canonical p = .ok q) (hq : d.canonical q = .ok q) (he : c.find? q.text = some entry)
    {k : Text} (hk : k = q.text ∨ k ∈ namesWith entry p.text) :
    d.canonical (.ofText k) = .ok q := by
  rcases hk with rfl | hk
  · rwa [Path.ofText_text]
  · rcases mem_namesWith.mp hk with hk | rfl
    · exact ((h.mem_aliases he hq).mp hk).2
    · rwa [Path.ofText_text]

theorem Grouped.find?_addAlias_canonical (h : Grouped d o c) {p q q' : Path} {entry : FileInfo}
    (hp : d.canonical p = .ok q) (hq : d.canonical q = .ok q) (hne : q ≠ p)
    (he : c.find? q.text = some entry) (hq' : d.canonical q' = .ok q') :
    (c.addAlias q.text p.text).find? q'.text =
      if q' = q then some { entry with aliases := namesWith entry p.text }
      else c.find? q'.text := by
  have hqp : q'.text ≠ p.text := by
    intro ht
    rw [Path.eq_of_text ht, hp] at hq'
    exact hne (by simpa using hq')
  rw [find?_addAlias (fun ht => hne (Path.eq_of_text ht)) he, if_neg hqp]
  by_cases heq : q' = q
  · subst heq
    rw [he, Option.map_some, if_pos (.inl rfl), if_pos rfl]
  · have hno : ¬(q'.text = q.text ∨ q'.text ∈ namesWith entry p.text) := by
      intro hk
      have hh := h.canonical_of_mem_namesWith hp hq he hk
      rw [Path.ofText_text, hq'] at hh
      exact heq (by simpa using hh)
    simp only [if_neg hno, if_neg heq, Option.map_id']

theorem Grouped.addAlias (hd : d.WellFormed) (h : Grouped d o c) {p q : Path}
    (hp : d.canonical p = .ok q) (hne : q ≠ p) (hc : c.contains q.text = true) :
    Grouped d o (c.addAlias q.text p.text) := by
  obtain ⟨entry, he⟩ := SortedMap.contains_iff.mp hc
  have hq := hd.canonical_canonical hp
  have hqp : q.text ≠ p.text := fun ht => hne (Path.eq_of_text ht)
  have hfind := find?_addAlias hqp he
  have hname := fun k => h.canonical_of_mem_namesWith hp hq he (k := k)
  constructor
  · intro k info hk
    rw [hfind] at hk
    split at hk
    next hkp => rw [hkp, Path.ofText_text]
    next =>
      obtain ⟨info', hk, -⟩ := Option.map_eq_some_iff.mp hk
      exact h.spelled hk
  · intro k info cause hk hcause
    rw [hfind] at hk
    split at hk
    next hkp =>
      rw [hkp, Path.ofText_text, hp] at hcause
      simp at hcause
    next =>
      obtain ⟨info', hk, hinfo⟩ := Option.map_eq_some_iff.mp hk
      have hno : ¬(k = q.text ∨ k ∈ namesWith entry p.text) := fun hk => by
        rw [hname k hk] at hcause
        simp at hcause
      rw [if_neg hno] at hinfo
      exact h.unresolved (hinfo ▸ hk) hcause
  · intro q' entry' hf hq'
    rw [h.find?_addAlias_canonical hp hq hne he hq'] at hf
    split at hf
    next heq =>
      subst heq
      obtain ⟨readOnly, hs⟩ := h.scanned he hq'
      exact ⟨readOnly, by rw [← Option.some.inj hf, hs]⟩
    next => exact h.scanned hf hq'
  · intro k info q' hk hq'
    have hkey := h.find?_addAlias_canonical hp hq hne he (hd.canonical_canonical hq')
    rw [hfind] at hk
    split at hk
    next hkp =>
      rw [hkp, Path.ofText_text, hp] at hq'
      obtain rfl : q = q' := by simpa using hq'
      exact ⟨_, hkey.trans (if_pos rfl), fun _ => (Option.some.inj hk).symm⟩
    next =>
      obtain ⟨info', hk', hinfo⟩ := Option.map_eq_some_iff.mp hk
      obtain ⟨entry', he', hs⟩ := h.shared hk' hq'
      by_cases heq : q' = q
      · subst heq
        obtain rfl : entry = entry' := by simpa [he] using he'
        have hmem : k ∈ namesWith entry p.text :=
          mem_namesWith.mpr (.inl ((h.mem_aliases he hq).mpr
            ⟨SortedMap.contains_iff.mpr ⟨info', hk'⟩, hq'⟩))
        refine ⟨_, hkey.trans (if_pos rfl), fun hkq => ?_⟩
        rw [if_pos (.inr hmem)] at hinfo
        rw [← hinfo, hs hkq]
      · have hno : ¬(k = q.text ∨ k ∈ namesWith entry p.text) := fun hk => by
          rw [hname k hk] at hq'
          exact heq (by simpa using hq'.symm)
        rw [if_neg hno] at hinfo
        exact ⟨entry', (hkey.trans (if_neg heq)).trans he', fun hkq => hinfo ▸ hs hkq⟩
  · intro q' entry' hf hq'
    rw [h.find?_addAlias_canonical hp hq hne he hq'] at hf
    split at hf
    next => exact Option.some.inj hf ▸ nodup_namesWith (h.nodup he hq)
    next => exact h.nodup hf hq'
  · intro q' entry' k hf hq'
    rw [h.find?_addAlias_canonical hp hq hne he hq'] at hf
    rw [contains_addAlias hqp hc]
    split at hf
    next heq =>
      subst heq
      rw [← Option.some.inj hf, mem_namesWith, h.mem_aliases he hq]
      constructor
      · rintro (⟨hk, hkq⟩ | rfl)
        · exact ⟨.inr hk, hkq⟩
        · exact ⟨.inl rfl, by rwa [Path.ofText_text]⟩
      · rintro ⟨hk | hk, hkq⟩
        · exact .inr hk
        · exact .inl ⟨hk, hkq⟩
    next hne' =>
      rw [h.mem_aliases hf hq']
      constructor
      · exact fun ⟨hk, hkq⟩ => ⟨.inr hk, hkq⟩
      · rintro ⟨rfl | hk, hkq⟩
        · rw [Path.ofText_text, hp] at hkq
          exact absurd (by simpa using hkq.symm) hne'
        · exact ⟨hk, hkq⟩

end BlockSync.Cache
