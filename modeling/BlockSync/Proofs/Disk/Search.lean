import BlockSync.Options.File
import BlockSync.Proofs.Cache.Scan
import BlockSync.Proofs.Disk.Canonical
import BlockSync.Proofs.Path.Upward

/-! Searches from a path upwards: for the directory that holds a marker, and for a configuration file.
Each ends at the longest directory in which there is something to be found. -/

namespace BlockSync.Disk

open BlockSync.Path (Above HeldBy Leads Longest Plain)

variable {d : Disk} {dir p root : Path} {name marker : Text}

/-- Something of that name is in the directory; a link leads to something. -/
def Has (d : Disk) (dir : Path) (name : Text) : Prop :=
  ∃ found, d.find (dir.entryText name) = .ok found

/-- A file of that name is in the directory, or a link that leads to one. -/
def HasFile (d : Disk) (dir : Path) (name : Text) : Prop :=
  ∃ place bytes mode, d.find (dir.entryText name) = .ok (place, .file bytes mode)

/-- The file is the first of its directory's configuration files, in the order of their names. -/
def IsFirstConfig (d : Disk) (dir found : Path) : Prop :=
  ∃ before name after, Config.fileNames = before ++ name :: after ∧
    (∀ other ∈ before, ¬d.HasFile dir other) ∧ d.HasFile dir name ∧ found.text = dir.entryText name

/-- What is found from a path upwards: the root, the way from the root to the path, by which the
file's own checksums are computed, and the configuration file. -/
structure FindsUpward (d : Disk) (p : Path) (marker : Text) : Prop where
  root : Longest (fun dir => Above dir p ∧ d.Has dir marker) (Scan.findRoot d p marker) ∨
    (∀ dir, Above dir p → ¬d.Has dir marker) ∧ HeldBy p (Scan.findRoot d p marker)
  way : ∃ rest, p.relativeTo? (Scan.findRoot d p marker) = some rest ∧
    (Scan.findRoot d p marker).join rest = p ∧
      ∀ o : Options, o.rootMarker = marker → ∀ readOnly id stored,
        (Scan.scan d o p readOnly).info.markers.find? id = some stored →
          ∃ b ∈ Scan.blocksOf d o p, stored = Scan.markerOf rest b
  config_some : ∀ found, Config.discover d p = some found → ∃ dir,
    Longest (fun dir => Leads dir p ∧ ∃ name ∈ Config.fileNames, d.HasFile dir name) dir ∧
      d.IsFirstConfig dir found
  config_none : Config.discover d p = none →
    ∀ dir, Leads dir p → ∀ name ∈ Config.fileNames, ¬d.HasFile dir name

theorem present_join_iff (hk : dir.kind = .absolute) (hn : Plain name) (hb : '\\' ∉ name) :
    d.present (dir.join name) = true ↔ d.Has dir name := by
  rw [present, Path.text_join_plain (Path.rooted_of_kind hk).text_ne hn hb, Has]
  cases d.find (dir.entryText name) with
  | ok found => simp
  | error cause => simp

theorem isFile_join_iff (hk : dir.kind = .absolute) (hn : Plain name) (hb : '\\' ∉ name) :
    d.isFile (dir.join name) = true ↔ d.HasFile dir name := by
  rw [isFile, Path.text_join_plain (Path.rooted_of_kind hk).text_ne hn hb, HasFile]
  rcases d.find (dir.entryText name) with cause | ⟨place, bytes | target | _⟩
  · simp
  · simp
  · simp
  · simp

theorem IsFirstConfig.exists_mem {found : Path} (h : d.IsFirstConfig dir found) :
    ∃ name ∈ Config.fileNames, d.HasFile dir name := by
  obtain ⟨before, name, after, hsplit, -, hhas, -⟩ := h
  exact ⟨name, by simp [hsplit], hhas⟩

theorem plain_of_mem_fileNames : ∀ name ∈ Config.fileNames, Plain name ∧ '\\' ∉ name := by
  decide

theorem findRoot_of_heldBy (h : HeldBy p dir) : Scan.findRoot d p marker =
    ((dir :: dir.ancestors).find? fun dir => d.present (dir.join marker)).getD dir := by
  rw [HeldBy] at h
  rw [Scan.findRoot, h, Option.getD_some]

/-- The search for the root goes through the directories above the file, the longest first. -/
theorem findRoot_cases (hp : p.kind = .absolute) (h : HeldBy p dir) (hn : Plain marker)
    (hb : '\\' ∉ marker) :
    Longest (fun dir => Above dir p ∧ d.Has dir marker) (Scan.findRoot d p marker) ∨
      (∀ dir, Above dir p → ¬d.Has dir marker) ∧ Scan.findRoot d p marker = dir := by
  have hdir : dir.kind = .absolute := (h.holds fun hk => by simp [hp] at hk).kind_eq.trans hp
  have hhas : ∀ other ∈ dir :: dir.ancestors,
      (d.present (other.join marker) = true ↔ d.Has other marker) := fun other hm =>
    present_join_iff (((Path.mem_upward_iff hdir).mp hm).kind_eq.trans hdir) hn hb
  rw [findRoot_of_heldBy h]
  simp only [Path.above_iff_of_heldBy hp h]
  cases hf : (dir :: dir.ancestors).find? fun dir => d.present (dir.join marker) with
  | none =>
    refine .inr ⟨fun other hother hmarker => ?_, rfl⟩
    have hm := (Path.mem_upward_iff hdir).mpr hother
    exact List.find?_eq_none.mp hf other hm ((hhas other hm).mpr hmarker)
  | some found =>
    obtain ⟨hfound, before, after, hsplit, hno⟩ := List.find?_eq_some_iff_append.mp hf
    have hmem : ∀ other, other ∈ before ∨ other = found → other ∈ dir :: dir.ancestors := by
      rintro other (hm | rfl)
      · simp [hsplit, hm]
      · simp [hsplit]
    refine .inl (Path.longest_of_split hdir hsplit ((hhas found (hmem _ (.inr rfl))).mp hfound) ?_)
    intro other hm hmarker
    have hpresent := (hhas other (hmem _ (.inl hm))).mpr hmarker
    simpa [hpresent] using hno other hm

/-- The way from a directory above a path leads back to the path. -/
theorem exists_way (hp : p.kind = .absolute) (h : Above root p) :
    ∃ rest, p.relativeTo? root = some rest ∧ root.join rest = p := by
  have hroot : root.kind = .absolute := h.1.kind_eq.trans hp
  obtain ⟨names, hnames⟩ := h.1.isPrefix
  refine ⟨Text.joinWith "/" names, (Path.relativeTo?_iff hp hroot).mpr ⟨names, hnames.symm, rfl⟩, ?_⟩
  have hmem : ∀ name ∈ names, name ∈ p.components := fun name hm => by simp [← hnames, hm]
  obtain ⟨hkind, hcomponents⟩ :=
    Path.join_joinWith hroot (fun name hm => Path.plain_of_mem_components (hmem name hm))
      fun name hm => Path.not_mem_of_mem_components (hmem name hm)
  exact Path.eq_of_kind_components (hkind.trans hp.symm) (hcomponents.trans hnames)

/-- The configuration files that a directory is asked for are the entries of their names. -/
theorem find?_configs (hk : dir.kind = .absolute) :
    (∀ found, (Config.fileNames.map dir.join).find? d.isFile = some found →
        d.IsFirstConfig dir found) ∧
      ((Config.fileNames.map dir.join).find? d.isFile = none ↔
        ∀ name ∈ Config.fileNames, ¬d.HasFile dir name) := by
  have hfile : ∀ name ∈ Config.fileNames,
      (d.isFile (dir.join name) = true ↔ d.HasFile dir name) := fun name hm =>
    isFile_join_iff hk (plain_of_mem_fileNames name hm).1 (plain_of_mem_fileNames name hm).2
  rw [List.find?_map]
  constructor
  · intro found h
    obtain ⟨name, hname, rfl⟩ := Option.map_eq_some_iff.mp h
    obtain ⟨hfound, before, after, hsplit, hno⟩ := List.find?_eq_some_iff_append.mp hname
    have hm : name ∈ Config.fileNames := by simp [hsplit]
    refine ⟨before, name, after, hsplit, fun other hother hhas => ?_, (hfile name hm).mp hfound, ?_⟩
    · have hisFile := (hfile other (by simp [hsplit, hother])).mpr hhas
      simpa [hisFile] using hno other hother
    · exact Path.text_join_plain (Path.rooted_of_kind hk).text_ne (plain_of_mem_fileNames name hm).1
        (plain_of_mem_fileNames name hm).2
  · rw [Option.map_eq_none_iff, List.find?_eq_none]
    exact forall₂_congr fun name hm => not_congr (hfile name hm)

theorem discover_some (hp : p.kind = .absolute) {found : Path}
    (h : Config.discover d p = some found) : ∃ dir,
      Longest (fun dir => Leads dir p ∧ ∃ name ∈ Config.fileNames, d.HasFile dir name) dir ∧
        d.IsFirstConfig dir found := by
  obtain ⟨before, dir, after, hsplit, hfound, hno⟩ := List.findSome?_eq_some_iff.mp h
  have hmem : ∀ other, other ∈ before ∨ other = dir → other.kind = .absolute := by
    rintro other hm
    have hupward : other ∈ p :: p.ancestors := by
      rw [hsplit]
      rcases hm with hm | rfl
      · simp [hm]
      · simp
    exact ((Path.mem_upward_iff hp).mp hupward).kind_eq.trans hp
  have hfirst := (find?_configs (hmem dir (.inr rfl))).1 found hfound
  refine ⟨dir, Path.longest_of_split hp hsplit hfirst.exists_mem ?_, hfirst⟩
  rintro other hm ⟨name', hname', hhas'⟩
  exact (find?_configs (hmem other (.inl hm))).2.mp (hno other hm) name' hname' hhas'

theorem discover_none (hp : p.kind = .absolute) (h : Config.discover d p = none) (hdir : Leads dir p) :
    ∀ name ∈ Config.fileNames, ¬d.HasFile dir name := by
  have hno := List.findSome?_eq_none_iff.mp h dir ((Path.mem_upward_iff hp).mpr hdir)
  exact (find?_configs (hdir.kind_eq.trans hp)).2.mp hno

/-- Below the top every search upwards ends at the nearest directory with what it looks for. -/
theorem findsUpward_of_plain (hp : Path.leading p.text = 1) (hne : p.components ≠ [])
    (hn : Plain marker) (hb : '\\' ∉ marker) (d : Disk) : FindsUpward d p marker := by
  have hk : p.kind = .absolute := Path.kind_of_leading hp
  obtain ⟨dir, hdir⟩ := Path.exists_heldBy hk hne
  have hroot := findRoot_cases (d := d) hk hdir hn hb
  have habove : Above (Scan.findRoot d p marker) p := by
    rcases hroot with hlongest | ⟨-, he⟩
    · exact hlongest.holds.1
    · rw [he]
      exact (Path.above_iff_of_heldBy hk hdir).mpr (.refl dir)
  constructor
  case root =>
    exact hroot.imp_right fun ⟨hno, he⟩ => ⟨hno, he ▸ hdir⟩
  case way =>
    obtain ⟨rest, hrest, hjoin⟩ := exists_way hk habove
    refine ⟨rest, hrest, hjoin, ?_⟩
    rintro o rfl readOnly id stored h
    rw [Scan.find?_scan_markers] at h
    obtain ⟨b, hkept, rfl⟩ := Option.map_eq_some_iff.mp h
    refine ⟨b, (Scan.mem_of_kept? hkept).1, ?_⟩
    rw [Scan.settingOf, hrest, Option.getD_some]
  case config_some =>
    exact fun found => discover_some hk
  case config_none =>
    exact fun h dir hdir => discover_none hk h hdir

/-- The nearest marker is a link to nothing, and the nearest configuration file a link to another
one. -/
def nestedDisk : Disk :=
  (((((((Disk.bare.set ["a"] .directory).set ["a", ".git"] .directory).set ["a", "tagsync.toml"]
    (.file [] 0o644#12)).set ["a", "b"] .directory).set ["a", "b", ".git"] (.link "gone")).set
    ["a", "b", ".tagsync.toml"] (.link "tagsync.yaml")).set ["a", "b", "tagsync.yaml"]
    (.file [] 0o644#12)).set ["a", "b", "f.md"] (.file [] 0o644#12)

theorem findsUpward_nestedDisk :
    let p := Path.ofText "/a/b/f.md"
    let root := Scan.findRoot nestedDisk p ".git"
    (Path.leading p.text = 1 ∧ p.components ≠ [] ∧ Plain ".git" ∧ '\\' ∉ (".git" : Text)) ∧
      root = .ofText "/a" ∧ nestedDisk.Has root ".git" ∧
        p.relativeTo? root = some "b/f.md" ∧ root.join "b/f.md" = p ∧
          ∃ dir, nestedDisk.IsFirstConfig dir (.ofText "/a/b/.tagsync.toml") := by
  intro p root
  have hp : Path.leading p.text = 1 := by decide
  have hne : p.components ≠ [] := by decide
  have hn : Plain ".git" := by decide
  have hb : '\\' ∉ (".git" : Text) := by decide
  have hroot : root = .ofText "/a" := by decide +kernel
  have hfound : Config.discover nestedDisk p = some (.ofText "/a/b/.tagsync.toml") := by
    decide +kernel
  have hfinds := findsUpward_of_plain hp hne hn hb nestedDisk
  have hhas : nestedDisk.Has root ".git" := by
    rcases hfinds.root with hlongest | ⟨-, hheld⟩
    · exact hlongest.holds.2
    · rw [HeldBy, show Scan.findRoot nestedDisk p ".git" = _ from hroot] at hheld
      exact absurd hheld (by decide)
  obtain ⟨rest, hrest, hjoin, -⟩ := hfinds.way
  have hway : p.relativeTo? root = some "b/f.md" := by
    rw [hroot]
    decide
  obtain rfl : rest = "b/f.md" := Option.some.inj (hrest.symm.trans hway)
  obtain ⟨dir, -, hfirst⟩ := hfinds.config_some _ hfound
  exact ⟨⟨hp, hne, hn, hb⟩, hroot, hhas, hway, hjoin, dir, hfirst⟩

end BlockSync.Disk
