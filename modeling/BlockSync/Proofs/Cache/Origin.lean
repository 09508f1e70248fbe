import BlockSync.Proofs.Cache.Build
import BlockSync.Proofs.Cache.Problems
import BlockSync.Proofs.Cache.Record

/-! Where the entries of a cache come from, on any disk. Each tells what a scan told, or that a path
could not be resolved. One that may be written is the entry of that very path; the others may be
copies under other names. -/

namespace BlockSync.Cache

variable {d : Disk} {o : Options} {c : Cache} {k : Text} {info : FileInfo}

inductive Origin (d : Disk) (o : Options) (k : Text) (info : FileInfo) : Prop
  | scanned (q : Path) (hk : info.readOnly = false → q.text = k)
      (hi : info = { (Scan.scan d o q false).info with
        readOnly := info.readOnly, aliases := info.aliases })
  | unresolved (p : Path) (cause : Disk.Cause) (hk : info.readOnly = false → p.text = k)
      (hi : info = { unresolvable p false cause with
        readOnly := info.readOnly, aliases := info.aliases })

theorem Origin.named (h : Origin d o k info) (aliases : List Text) :
    Origin d o k { info with aliases } := by
  cases h with
  | scanned q hk hi => exact .scanned q hk (by rw [hi])
  | unresolved p cause hk hi => exact .unresolved p cause hk (by rw [hi])

theorem Origin.copied (h : Origin d o k info) (k' : Text) (aliases : List Text) :
    Origin d o k' { info with aliases, readOnly := true } := by
  cases h with
  | scanned q hk hi => exact .scanned q (by simp) (by rw [hi])
  | unresolved p cause hk hi => exact .unresolved p cause (by simp) (by rw [hi])

def Traced (d : Disk) (o : Options) (c : Cache) : Prop :=
  ∀ k info, c.find? k = some info → Origin d o k info

theorem Traced.empty (d : Disk) (o : Options) : Traced d o ∅ := by
  intro k info hk
  simp at hk

theorem Traced.insert (h : Traced d o c) (ho : Origin d o k info) : Traced d o (c.insert k info) := by
  intro k' info' hk
  rw [SortedMap.find?_insert] at hk
  split at hk
  next he =>
    obtain rfl := Option.some.inj hk
    exact he ▸ ho
  next => exact h k' info' hk

theorem Traced.addAlias (h : Traced d o c) {canonical name : Text} (hne : canonical ≠ name)
    (hc : c.contains canonical = true) : Traced d o (c.addAlias canonical name) := by
  obtain ⟨entry, he⟩ := SortedMap.contains_iff.mp hc
  intro k info hk
  rw [find?_addAlias hne he] at hk
  split at hk
  next =>
    obtain rfl := Option.some.inj hk
    exact (h canonical entry he).copied k _
  next =>
    obtain ⟨before, hb, rfl⟩ := Option.map_eq_some_iff.mp hk
    split
    next => exact (h k before hb).named _
    next => exact h k before hb

theorem Traced.withScan (h : Traced d o c) (readOnly : Bool) (q : Path) :
    Traced d o (withScan d o readOnly c q) := by
  unfold Cache.withScan
  split
  next => exact h
  next => exact h.insert (.scanned q (fun _ => rfl) (by rw [Scan.scan_info]))

theorem Traced.visit {s : Cache × List Path} (h : Traced d o s.1) (readOnly : Bool) (p : Path) :
    Traced d o (visit d o readOnly s p).1 := by
  cases hp : d.canonical p with
  | error cause =>
    rw [visit_of_error hp]
    dsimp only
    split
    next => exact h
    next => exact h.insert (.unresolved p cause (fun _ => rfl) rfl)
  | ok q =>
    rw [visit_of_ok hp]
    dsimp only
    split
    next => exact h.withScan readOnly q
    next hne =>
      have hqp : q.text ≠ p.text := fun ht => hne (Path.eq_of_text ht)
      exact (h.withScan readOnly q).addAlias hqp (contains_withScan.mpr (.inl rfl))

theorem Traced.foldl_visit {s : Cache × List Path} (h : Traced d o s.1) (readOnly : Bool)
    (files : List Path) : Traced d o (files.foldl (Cache.visit d o readOnly) s).1 := by
  induction files generalizing s with
  | nil => exact h
  | cons p files ih => exact ih (h.visit readOnly p)

theorem traced_build (d : Disk) (o : Options) (files : List Path) : Traced d o (build d o files) := by
  have hrequested : Traced d o (files.foldl (visit d o false) (∅, [])).1 :=
    (Traced.empty d o).foldl_visit false files
  exact Traced.foldl_visit (s := (_, [])) hrequested true _

/-- An entry with a marker is of a file that can be read. -/
theorem Origin.exists_records (h : Origin d o k info) {id : Text} {marker : Marker}
    (hm : info.markers.find? id = some marker) :
    ∃ q lines, (info.readOnly = false → q.text = k) ∧ Records d o q lines info ∧
      info.root = (Scan.findRoot d q o.rootMarker).text := by
  cases h with
  | unresolved p cause hk hi =>
    rw [hi] at hm
    simp [unresolvable, FileInfo.new] at hm
  | scanned q hk hi =>
    rcases hl : d.lines q with cause | ⟨lines, cause | cause⟩
    · rw [hi] at hm
      simp [Scan.scan, hl, Scan.unreadable, FileInfo.new] at hm
    · rw [Scan.scan_info_of_lines hl] at hi
      exact ⟨q, lines, hk, ⟨hl, by rw [hi], by rw [hi]⟩, by rw [hi]⟩
    · rw [hi] at hm
      simp [Scan.scan, hl, Scan.unreadable, FileInfo.new] at hm

/-- Reading a file finds no problem that comes from comparing it with others. -/
theorem isParsed_build {files : List Path} (hk : (build d o files).find? k = some info)
    {x : Diagnostic} (hx : x ∈ info.problems) : x.problem.isParsed = true := by
  cases traced_build d o files k info hk with
  | unresolved p cause _ hi =>
    rw [hi] at hx
    obtain rfl := List.mem_singleton.mp hx
    rfl
  | scanned q _ hi =>
    rw [hi] at hx
    exact Scan.isParsed_scan hx

end BlockSync.Cache
