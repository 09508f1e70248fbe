import BlockSync.Proofs.Cache.Group

/-! The cache that a list of requested files leads to. Its keys are the requested files and the
files that these refer to, each with its path without links, and the entries that may be written
are those of the requested files under their paths without links. -/

namespace BlockSync.Cache

variable {d : Disk} {o : Options} {c : Cache}

def Writable (c : Cache) (k : Text) : Prop :=
  ∃ info, c.find? k = some info ∧ info.readOnly = false

/-- The key under which a file is told: its path without links, if there is one. -/
def keyOf (d : Disk) (p : Path) : Text :=
  match d.canonical p with
  | .ok q => q.text
  | .error _ => p.text

theorem keyOf_of_ok {p q : Path} (h : d.canonical p = .ok q) : keyOf d p = q.text := by
  rw [keyOf, h]

theorem keyOf_of_error {p : Path} {cause : Disk.Cause} (h : d.canonical p = .error cause) :
    keyOf d p = p.text := by
  rw [keyOf, h]

theorem writable_insert {k k' : Text} {info : FileInfo} :
    Writable (c.insert k info) k' ↔
      k' = k ∧ info.readOnly = false ∨ k' ≠ k ∧ Writable c k' := by
  simp only [Writable, SortedMap.find?_insert]
  by_cases h : k' = k <;> simp [h]

theorem Grouped.writable_addAlias (h : Grouped d o c) {p q : Path}
    (hp : d.canonical p = .ok q) (hne : q ≠ p) (hc : c.contains q.text = true) (k : Text) :
    Writable (c.addAlias q.text p.text) k ↔ Writable c k := by
  obtain ⟨entry, he⟩ := SortedMap.contains_iff.mp hc
  have hqp : q.text ≠ p.text := fun ht => hne (Path.eq_of_text ht)
  simp only [Writable, find?_addAlias hqp he]
  by_cases hk : k = p.text
  · subst hk
    simp only [if_true, Option.some.injEq, exists_eq_left', Bool.true_eq_false, false_iff]
    rintro ⟨info, hi, hw⟩
    obtain ⟨entry', -, hs⟩ := h.shared hi ((Path.ofText_text p).symm ▸ hp)
    rw [hs hqp.symm] at hw
    simp at hw
  · simp only [if_neg hk, Option.map_eq_some_iff]
    constructor
    · rintro ⟨_, ⟨info, hi, rfl⟩, hw⟩
      refine ⟨info, hi, ?_⟩
      split at hw <;> exact hw
    · rintro ⟨info, hi, hw⟩
      refine ⟨_, ⟨info, hi, rfl⟩, ?_⟩
      split <;> exact hw

/-- The cache with an entry for a file under its path without links. -/
def withScan (d : Disk) (o : Options) (readOnly : Bool) (c : Cache) (q : Path) : Cache :=
  if c.contains q.text then c else c.insert q.text (Scan.scan d o q readOnly).info

theorem contains_withScan {readOnly : Bool} {q : Path} {k : Text} :
    (withScan d o readOnly c q).contains k = true ↔ k = q.text ∨ c.contains k = true := by
  unfold withScan
  split
  next hc =>
    constructor
    · exact .inr
    · rintro (rfl | h)
      · exact hc
      · exact h
  next => exact SortedMap.contains_insert ..

theorem Grouped.withScan (h : Grouped d o c) {q : Path} (hq : d.canonical q = .ok q)
    (readOnly : Bool) : Grouped d o (withScan d o readOnly c q) := by
  unfold Cache.withScan
  split
  next => exact h
  next hc => exact h.insert_scanned hq hc readOnly

theorem visit_of_error {readOnly : Bool} {s : Cache × List Path} {p : Path} {cause : Disk.Cause}
    (hp : d.canonical p = .error cause) :
    visit d o readOnly s p =
      (if s.1.contains p.text then s.1 else s.1.insert p.text (unresolvable p readOnly cause),
        s.2) := by
  unfold visit
  rw [hp]
  simp only
  split <;> rfl

theorem visit_of_ok {readOnly : Bool} {s : Cache × List Path} {p q : Path}
    (hp : d.canonical p = .ok q) :
    visit d o readOnly s p =
      (if q = p then withScan d o readOnly s.1 q
        else (withScan d o readOnly s.1 q).addAlias q.text p.text,
        s.2 ++ if s.1.contains q.text then [] else (Scan.scan d o q readOnly).referenced) := by
  unfold visit withScan
  rw [hp]
  by_cases hc : s.1.contains q.text = true
  · by_cases hqp : q = p
    · simp only [hc, if_true, if_pos hqp, List.append_nil]
    · simp only [hc, if_true, if_neg hqp, List.append_nil]
  · by_cases hqp : q = p
    · simp only [hc, if_false, if_pos hqp, Bool.false_eq_true]
    · simp only [hc, if_false, if_neg hqp, Bool.false_eq_true]

theorem Grouped.visit (hd : d.WellFormed) {s : Cache × List Path} (h : Grouped d o s.1)
    (readOnly : Bool) (p : Path) : Grouped d o (visit d o readOnly s p).1 := by
  cases hp : d.canonical p with
  | error cause =>
    rw [visit_of_error hp]
    dsimp only
    split
    next => exact h
    next => exact h.insert_unresolvable hd hp readOnly
  | ok q =>
    rw [visit_of_ok hp]
    have hq := h.withScan (hd.canonical_canonical hp) readOnly
    dsimp only
    split
    next => exact hq
    next hne => exact hq.addAlias hd hp hne (contains_withScan.mpr (.inl rfl))

theorem contains_visit {readOnly : Bool} {s : Cache × List Path} {p : Path} {k : Text} :
    (visit d o readOnly s p).1.contains k = true ↔
      s.1.contains k = true ∨ k = p.text ∨ k = keyOf d p := by
  cases hp : d.canonical p with
  | error cause =>
    rw [visit_of_error hp, keyOf_of_error hp, or_self]
    dsimp only
    split
    next hc => exact ⟨.inl, fun h => h.elim (fun h => h) fun h => h ▸ hc⟩
    next => rw [SortedMap.contains_insert, or_comm]
  | ok q =>
    rw [visit_of_ok hp, keyOf_of_ok hp]
    dsimp only
    split
    next hqp => rw [contains_withScan, hqp, or_self, or_comm]
    next hqp =>
      have hne : q.text ≠ p.text := fun ht => hqp (Path.eq_of_text ht)
      rw [contains_addAlias hne (contains_withScan.mpr (.inl rfl)), contains_withScan]
      grind

theorem Grouped.writable_visit (hd : d.WellFormed) {s : Cache × List Path} (h : Grouped d o s.1)
    {readOnly : Bool} {p : Path} {k : Text} :
    Writable (Cache.visit d o readOnly s p).1 k ↔
      Writable s.1 k ∨ readOnly = false ∧ k = keyOf d p ∧ ¬s.1.contains k = true := by
  have hno : ∀ {k}, ¬s.1.contains k = true → ¬Writable s.1 k := fun hc ⟨info, hi, _⟩ =>
    hc (SortedMap.contains_iff.mpr ⟨info, hi⟩)
  cases hp : d.canonical p with
  | error cause =>
    rw [visit_of_error hp, keyOf_of_error hp]
    dsimp only
    split
    next hc => grind
    next hc =>
      rw [writable_insert]
      have hr : (unresolvable p readOnly cause).readOnly = readOnly := rfl
      grind
  | ok q =>
    rw [visit_of_ok hp, keyOf_of_ok hp]
    have hscan : Writable (Cache.withScan d o readOnly s.1 q) k ↔
        Writable s.1 k ∨ readOnly = false ∧ k = q.text ∧ ¬s.1.contains k = true := by
      unfold Cache.withScan
      split
      next hc => grind
      next hc =>
        rw [writable_insert]
        have hr : (Scan.scan d o q readOnly).info.readOnly = readOnly := by rw [Scan.scan_info]
        grind
    dsimp only
    split
    next => exact hscan
    next hne =>
      rw [Grouped.writable_addAlias (h.withScan (hd.canonical_canonical hp) readOnly) hp hne
        (contains_withScan.mpr (.inl rfl))]
      exact hscan

/-- What is known of the cache and of the files to come once the files of a list were taken in. -/
structure Requested (d : Disk) (o : Options) (files : List Path) (s : Cache × List Path) :
    Prop where
  grouped : Grouped d o s.1
  contains : ∀ k, s.1.contains k = true ↔ ∃ p ∈ files, k = p.text ∨ k = keyOf d p
  writable : ∀ k, Writable s.1 k ↔ ∃ p ∈ files, k = keyOf d p
  pending : ∀ r, r ∈ s.2 ↔
    ∃ p ∈ files, ∃ q, d.canonical p = .ok q ∧ r ∈ (Scan.scan d o q false).referenced

theorem Requested.exists_keyOf (hd : d.WellFormed) {files : List Path} {s : Cache × List Path}
    (h : Requested d o files s) {p : Path} (hc : s.1.contains (keyOf d p) = true) :
    ∃ p' ∈ files, keyOf d p' = keyOf d p := by
  obtain ⟨p', hm, hk | hk⟩ := (h.contains _).mp hc
  · refine ⟨p', hm, ?_⟩
    cases hp : d.canonical p with
    | error cause =>
      rw [keyOf_of_error hp] at hk
      rw [Path.eq_of_text hk]
    | ok q =>
      rw [keyOf_of_ok hp] at hk ⊢
      rw [← Path.eq_of_text hk, keyOf_of_ok (hd.canonical_canonical hp)]
  · exact ⟨p', hm, hk.symm⟩

theorem canonical_of_keyOf (hd : d.WellFormed) {p p' q : Path} (hp : d.canonical p = .ok q)
    (hk : keyOf d p' = keyOf d p) : d.canonical p' = .ok q := by
  rw [keyOf_of_ok hp] at hk
  cases hp' : d.canonical p' with
  | error cause =>
    rw [keyOf_of_error hp'] at hk
    rw [Path.eq_of_text hk, hd.canonical_canonical hp] at hp'
    simp at hp'
  | ok q' =>
    rw [keyOf_of_ok hp'] at hk
    rw [Path.eq_of_text hk]

theorem Requested.visit (hd : d.WellFormed) {files : List Path} {s : Cache × List Path}
    (h : Requested d o files s) (p : Path) :
    Requested d o (files ++ [p]) (visit d o false s p) := by
  constructor
  · exact h.grouped.visit hd false p
  · intro k
    rw [contains_visit, h.contains]
    simp [or_and_right, exists_or]
  · intro k
    rw [h.grouped.writable_visit hd, h.writable]
    simp only [true_and, List.mem_append, List.mem_singleton]
    constructor
    · rintro (⟨p', hm, hk⟩ | ⟨hk, -⟩)
      · exact ⟨p', .inl hm, hk⟩
      · exact ⟨p, .inr rfl, hk⟩
    · rintro ⟨p', hm | rfl, hk⟩
      · exact .inl ⟨p', hm, hk⟩
      · by_cases hc : s.1.contains k = true
        · subst hk
          obtain ⟨p'', hm, he⟩ := h.exists_keyOf hd hc
          exact .inl ⟨p'', hm, he.symm⟩
        · exact .inr ⟨hk, hc⟩
  · intro r
    simp only [List.mem_append, List.mem_singleton, or_and_right, exists_or, exists_eq_left]
    cases hp : d.canonical p with
    | error cause => simp [visit_of_error hp, h.pending]
    | ok q =>
      rw [visit_of_ok hp]
      simp only [List.mem_append, h.pending, Except.ok.injEq, exists_eq_left']
      by_cases hc : s.1.contains q.text = true
      · simp only [if_pos hc, List.not_mem_nil, or_false]
        refine ⟨.inl, fun hr => hr.elim (fun hr => hr) fun hr => ?_⟩
        obtain ⟨p', hm, he⟩ := h.exists_keyOf hd ((keyOf_of_ok hp).symm ▸ hc)
        exact ⟨p', hm, q, canonical_of_keyOf hd hp he, hr⟩
      · simp only [if_neg hc]

theorem requested_foldl (hd : d.WellFormed) {before : List Path} {s : Cache × List Path}
    (h : Requested d o before s) (files : List Path) :
    Requested d o (before ++ files) (files.foldl (visit d o false) s) := by
  induction files generalizing before s with
  | nil => simpa using h
  | cons p files ih => simpa using ih (h.visit hd p)

theorem requested_files (hd : d.WellFormed) (files : List Path) :
    Requested d o files (files.foldl (visit d o false) (∅, [])) := by
  have h : Requested d o [] (∅, []) :=
    ⟨.empty d o, by simp [SortedMap.contains], by simp [Writable], by simp⟩
  simpa using requested_foldl hd h files

/-- Taking in files that may not be written keeps the groups and makes nothing writable. -/
theorem Grouped.foldl_visit (hd : d.WellFormed) {s : Cache × List Path} (h : Grouped d o s.1)
    (files : List Path) :
    Grouped d o (files.foldl (Cache.visit d o true) s).1 ∧
      (∀ k, Writable (files.foldl (Cache.visit d o true) s).1 k ↔ Writable s.1 k) ∧
      ∀ k, (files.foldl (Cache.visit d o true) s).1.contains k = true ↔
        s.1.contains k = true ∨ ∃ p ∈ files, k = p.text ∨ k = keyOf d p := by
  induction files generalizing s with
  | nil => simp [h]
  | cons p files ih =>
    obtain ⟨hg, hw, hc⟩ := ih (h.visit hd true p)
    refine ⟨hg, fun k => ?_, fun k => ?_⟩
    · rw [List.foldl_cons, hw, h.writable_visit hd]
      simp
    · rw [List.foldl_cons, hc, contains_visit]
      simp [or_assoc]

/-- A requested file refers to `r` with a declaration of a completed block. -/
def Referenced (d : Disk) (o : Options) (files : List Path) (r : Path) : Prop :=
  ∃ p ∈ files, ∃ q, d.canonical p = .ok q ∧
    ∃ b ∈ Scan.blocksOf d o q, ∃ target ∈ b.targets.values, Scan.Refers d q target r

theorem grouped_build (hd : d.WellFormed) (files : List Path) : Grouped d o (build d o files) := by
  have h := requested_files (o := o) hd files
  exact (Grouped.foldl_visit (s := (_, [])) hd h.grouped _).1

theorem writable_build (hd : d.WellFormed) {files : List Path} {k : Text} :
    Writable (build d o files) k ↔ ∃ p ∈ files, k = keyOf d p := by
  have h := requested_files (o := o) hd files
  exact ((Grouped.foldl_visit (s := (_, [])) hd h.grouped _).2.1 k).trans (h.writable k)

theorem contains_build (hd : d.WellFormed) {files : List Path} {k : Text} :
    (build d o files).contains k = true ↔
      ∃ p, (p ∈ files ∨ Referenced d o files p) ∧ (k = p.text ∨ k = keyOf d p) := by
  have h := requested_files (o := o) hd files
  refine ((Grouped.foldl_visit (s := (_, [])) hd h.grouped _).2.2 k).trans ?_
  simp only [h.contains, h.pending, Scan.mem_scan_referenced, Referenced]
  grind

end BlockSync.Cache
