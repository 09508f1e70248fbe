import BlockSync.Proofs.Cache.Entry
import BlockSync.Proofs.Options

/-! What a built cache promises. All names of a file share one list of names and one record, a
file may be written under one key at most, and every file that a writable one refers to is there. -/

namespace BlockSync.Cache

/-- The promise, for a list of requested files. -/
structure Coherent (d : Disk) (o : Options) (files : List Path) (c : Cache) : Prop where
  spelled : ∀ {k}, c.contains k = true → (Path.ofText k).text = k
  nodup : ∀ {k info q}, c.find? k = some info → d.canonical (.ofText k) = .ok q →
    info.aliases.Nodup
  mem_aliases : ∀ {k info q}, c.find? k = some info → d.canonical (.ofText k) = .ok q →
    ∀ name, name ∈ info.aliases ↔
      c.contains name = true ∧ d.canonical (.ofText name) = .ok q
  own_mem : ∀ {k info q}, c.find? k = some info → d.canonical (.ofText k) = .ok q →
    k ∈ info.aliases ∧ q.text ∈ info.aliases
  agree : ∀ {k k' info info' q}, c.find? k = some info → c.find? k' = some info' →
    d.canonical (.ofText k) = .ok q → d.canonical (.ofText k') = .ok q →
    info.aliases = info'.aliases ∧ info.root = info'.root ∧ info.markers = info'.markers ∧
      info.problems = info'.problems ∧ info.lineCount = info'.lineCount
  writable : ∀ k, Writable c k ↔
    ∃ p ∈ files, (∃ q, d.canonical p = .ok q ∧ k = q.text) ∨
      (∃ cause, d.canonical p = .error cause) ∧ k = p.text
  single : ∀ {k k' q}, Writable c k → Writable c k' → d.canonical (.ofText k) = .ok q →
    d.canonical (.ofText k') = .ok q → k = k'
  refers : ∀ {k}, Writable c k → ∀ b ∈ Scan.blocksOf d o (.ofText k),
    ∀ target ∈ b.targets.values, ∀ text, target.kind = .file text →
      d.isFile (.ofText text) = true → d.canonical (.ofText text) ≠ .ok (.ofText k) →
        c.contains text = true

variable {d : Disk} {o : Options} {c : Cache}

/-- Whatever files are requested, in any order and under any of their names, the cache that they
lead to is coherent. -/
theorem coherent_build (hd : d.WellFormed) (files : List Path) :
    Coherent d o files (build d o files) := by
  have hg := grouped_build (o := o) hd files
  constructor
  case spelled =>
    intro k hk
    obtain ⟨info, hk⟩ := SortedMap.contains_iff.mp hk
    exact hg.spelled hk
  case nodup =>
    intro k info q hk hq
    exact hg.nodup_names hd hk hq
  case mem_aliases =>
    intro k info q hk hq name
    exact hg.mem_names hd hk hq
  case own_mem =>
    intro k info q hk hq
    have hc := SortedMap.contains_iff.mpr ⟨info, hk⟩
    rw [hg.mem_names hd hk hq, hg.mem_names hd hk hq, Path.ofText_text]
    exact ⟨⟨hc, hq⟩, hg.contains_canonical hc hq, hd.canonical_canonical hq⟩
  case agree =>
    intro k k' info info' q hk hk' hq hq'
    obtain ⟨entry, he, hs⟩ := hg.eq_canonical hk hq
    obtain ⟨entry', he', hs'⟩ := hg.eq_canonical hk' hq'
    obtain rfl : entry = entry' := by simpa [he] using he'
    rw [hs, hs']
    exact ⟨rfl, rfl, rfl, rfl, rfl⟩
  case writable =>
    intro k
    simp only [writable_build hd, eq_keyOf_iff]
  case single =>
    intro k k' q hw hw' hq hq'
    obtain ⟨p, -, r, hp, rfl⟩ := canonical_of_writable hd hw ⟨q, hq⟩
    obtain ⟨p', -, r', hp', rfl⟩ := canonical_of_writable hd hw' ⟨q, hq'⟩
    rw [Path.ofText_text, hd.canonical_canonical hp] at hq
    rw [Path.ofText_text, hd.canonical_canonical hp'] at hq'
    rw [Except.ok.inj hq, Except.ok.inj hq']
  case refers =>
    intro k hw b hb target ht text hkind hf hne
    exact contains_of_refers hd hw hb ht hkind hf hne

/-- A file with two names, one of them a link, that declares a target in a third file. -/
def linkedDisk : Disk :=
  ((Disk.bare.set ["a"]
    (.file (Text.Utf8.encode "# sync-start:m b\nx\n# sync-end:m\n") 0o644#12)).set ["b"]
    (.file (Text.Utf8.encode "y\n") 0o644#12)).set ["l"] (.link "a")

theorem linkedDisk_wellFormed : linkedDisk.WellFormed := by
  constructor <;> decide

theorem coherent_build_linkedDisk :
    linkedDisk.WellFormed ∧
      Coherent linkedDisk .standard [.ofText "l", .ofText "/a", .ofText "gone"]
        (build linkedDisk .standard [.ofText "l", .ofText "/a", .ofText "gone"]) :=
  ⟨linkedDisk_wellFormed, coherent_build linkedDisk_wellFormed _⟩

end BlockSync.Cache
