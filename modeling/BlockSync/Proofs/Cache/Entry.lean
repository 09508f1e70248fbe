import BlockSync.Proofs.Cache.Build

/-! The entries of a cache that was built: what they record, which of them may be written, and that
the files which these refer to have entries too. -/

namespace BlockSync.Cache

variable {d : Disk} {o : Options} {c : Cache}

theorem eq_keyOf_iff {p : Path} {k : Text} :
    k = keyOf d p ↔ (∃ q, d.canonical p = .ok q ∧ k = q.text) ∨
      (∃ cause, d.canonical p = .error cause) ∧ k = p.text := by
  cases hp : d.canonical p with
  | error cause => simp [keyOf_of_error hp]
  | ok q => simp [keyOf_of_ok hp]

theorem Grouped.eq_canonical (h : Grouped d o c) {k : Text} {info : FileInfo} {q : Path}
    (hk : c.find? k = some info) (hq : d.canonical (.ofText k) = .ok q) :
    ∃ entry, c.find? q.text = some entry ∧ info = { entry with readOnly := info.readOnly } := by
  obtain ⟨entry, he, hs⟩ := h.shared hk hq
  refine ⟨entry, he, ?_⟩
  by_cases hkq : k = q.text
  · subst hkq
    obtain rfl : info = entry := by simpa [hk] using he
    rfl
  · rw [hs hkq]

theorem Grouped.mem_names (hd : d.WellFormed) (h : Grouped d o c) {k : Text} {info : FileInfo}
    {q : Path} (hk : c.find? k = some info) (hq : d.canonical (.ofText k) = .ok q) {name : Text} :
    name ∈ info.aliases ↔ c.contains name = true ∧ d.canonical (.ofText name) = .ok q := by
  obtain ⟨entry, he, hs⟩ := h.eq_canonical hk hq
  have hm := h.mem_aliases (k := name) he (hd.canonical_canonical hq)
  rw [hs]
  exact hm

theorem Grouped.nodup_names (hd : d.WellFormed) (h : Grouped d o c) {k : Text} {info : FileInfo}
    {q : Path} (hk : c.find? k = some info) (hq : d.canonical (.ofText k) = .ok q) :
    info.aliases.Nodup := by
  obtain ⟨entry, he, hs⟩ := h.eq_canonical hk hq
  have hn := h.nodup he (hd.canonical_canonical hq)
  rw [hs]
  exact hn

theorem Grouped.eq_scan (hd : d.WellFormed) (h : Grouped d o c) {k : Text} {info : FileInfo}
    {q : Path} (hk : c.find? k = some info) (hq : d.canonical (.ofText k) = .ok q) :
    info = { (Scan.scan d o q false).info with
      readOnly := info.readOnly, aliases := info.aliases } := by
  obtain ⟨entry, he, hs⟩ := h.eq_canonical hk hq
  obtain ⟨readOnly, hscan⟩ := h.scanned he (hd.canonical_canonical hq)
  rw [hs, hscan, Scan.scan_info d o q readOnly]

theorem Grouped.markers_eq (hd : d.WellFormed) (h : Grouped d o c) {k : Text} {info : FileInfo}
    {q : Path} (hk : c.find? k = some info) (hq : d.canonical (.ofText k) = .ok q) :
    info.markers = (Scan.scan d o q false).info.markers := by
  rw [h.eq_scan hd hk hq]

theorem Grouped.problems_eq (hd : d.WellFormed) (h : Grouped d o c) {k : Text} {info : FileInfo}
    {q : Path} (hk : c.find? k = some info) (hq : d.canonical (.ofText k) = .ok q) :
    info.problems = (Scan.scan d o q false).info.problems := by
  rw [h.eq_scan hd hk hq]

theorem text_of_resolveTarget {root : Path} {reference text : Text}
    (h : (Scan.resolveTarget d root reference).kind = .file text) :
    (Path.ofText text).text = text := by
  unfold Scan.resolveTarget at h
  split at h
  next => simp at h
  next =>
    obtain rfl := TargetKind.file.inj h
    rw [Path.ofText_text]

theorem text_of_mem_blocksOf {path : Path} {b : Block} (hb : b ∈ Scan.blocksOf d o path)
    {target : Target} (ht : target ∈ b.targets.values) {text : Text}
    (hk : target.kind = .file text) : (Path.ofText text).text = text := by
  unfold Scan.blocksOf at hb
  split at hb
  next =>
    obtain ⟨n, hn⟩ := SortedMap.mem_values_iff.mp ht
    obtain ⟨_, _, _, -, -, -, -, rfl⟩ := Block.exists_start_of_mem_events hb hn
    exact text_of_resolveTarget hk
  next => simp at hb

theorem isFile_of_mem_blocksOf {path : Path} {b : Block} (hb : b ∈ Scan.blocksOf d o path) :
    d.isFile path = true := by
  unfold Scan.blocksOf at hb
  split at hb
  next lines hl => exact Disk.isFile_of_lines hl
  next => simp at hb

theorem canonical_of_mem_blocksOf {path : Path} {b : Block} (hb : b ∈ Scan.blocksOf d o path) :
    ∃ q, d.canonical path = .ok q :=
  Disk.canonical_of_isFile (isFile_of_mem_blocksOf hb)

theorem targetsSelf_eq_false {path : Path} {text : Text} (hp : d.canonical path = .ok path)
    (hf : d.isFile (.ofText text) = true) (hne : d.canonical (.ofText text) ≠ .ok path) :
    Scan.targetsSelf d path text = false := by
  obtain ⟨q, hq⟩ := Disk.canonical_of_isFile hf
  rw [hq] at hne
  have hqp : q ≠ path := fun he => hne (by rw [he])
  have hpath : text ≠ path.text := by
    rintro rfl
    rw [Path.ofText_text, hp] at hq
    exact hqp (by simpa using hq.symm)
  simp [Scan.targetsSelf, hq, hqp, hpath]

theorem canonical_of_writable (hd : d.WellFormed) {files : List Path} {k : Text}
    (hw : Writable (build d o files) k) (hq : ∃ q, d.canonical (.ofText k) = .ok q) :
    ∃ p ∈ files, ∃ q, d.canonical p = .ok q ∧ k = q.text := by
  obtain ⟨p, hm, hk⟩ := (writable_build hd).mp hw
  rcases eq_keyOf_iff.mp hk with hk | ⟨⟨cause, hc⟩, rfl⟩
  · exact ⟨p, hm, hk⟩
  · obtain ⟨q, hq⟩ := hq
    rw [Path.ofText_text, hc] at hq
    simp at hq

theorem contains_of_refers (hd : d.WellFormed) {files : List Path} {k : Text}
    (hw : Writable (build d o files) k) {b : Block} (hb : b ∈ Scan.blocksOf d o (.ofText k))
    {target : Target} (ht : target ∈ b.targets.values) {text : Text}
    (hkind : target.kind = .file text) (hf : d.isFile (.ofText text) = true)
    (hne : d.canonical (.ofText text) ≠ .ok (.ofText k)) :
    (build d o files).contains text = true := by
  obtain ⟨p, hm, q, hp, rfl⟩ := canonical_of_writable hd hw (canonical_of_mem_blocksOf hb)
  rw [Path.ofText_text] at hb hne
  have hself := targetsSelf_eq_false (hd.canonical_canonical hp) hf hne
  have hr : Referenced d o files (.ofText text) :=
    ⟨p, hm, q, hp, b, hb, target, ht, text, hkind, hself, hf, rfl⟩
  exact (contains_build hd).mpr ⟨_, .inr hr, .inl (text_of_mem_blocksOf hb ht hkind).symm⟩

end BlockSync.Cache
