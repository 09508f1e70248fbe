import BlockSync.Proofs.Disk.Changed
import BlockSync.Proofs.Path.Shape

/-! Replacing what a path leads to, on any disk. The way to the path goes through one directory, the
neighbour is written there, and it is gone again unless the writer commits. -/

namespace BlockSync.Disk

open Text.Utf8 (Bytes)

variable {d d' : Disk} {p q : Path} {last : Bool} {left : Nat} {dir place : Place} {e : Entry}

/-- The names above the path lead to the directory. -/
structure Beside (d : Disk) (p : Path) (left : Nat) (dir : Place) : Prop where
  passes : d.Passes maxLinks (d.start p.above) (p.above.splitOn '/').dropLast left dir
  directory : d.entry? dir = some .directory
  nul : '\x00' ∉ p.above

/-- There is a directory that the names above the path lead to. -/
def Housed (d : Disk) (p : Path) : Prop :=
  ∃ left dir, d.Beside p left dir

theorem passes_of_stay {here : Place} (hh : d.entry? here = some .directory) {names : List Text}
    (h : ∀ name ∈ names, name = [] ∨ name = ".") : d.Passes left here names left here := by
  induction names with
  | nil => exact .done
  | cons name names ih =>
    exact .step hh (.stay (h name (by simp))) (ih fun n hn => h n (List.mem_cons_of_mem _ hn))

theorem splitOn_below (head : Text) {name : Text} (hn : '/' ∉ name) :
    (head ++ '/' :: name).splitOn '/' = head.splitOn '/' ++ [name] := by
  rw [List.splitOn_append_cons_self, List.splitOn_eq_singleton hn]

theorem start_below (d : Disk) (head name : Text) :
    d.start (head ++ '/' :: name) = d.start (head ++ "/") := by
  cases head with
  | nil => rfl
  | cons c head => rfl

theorem start_above (d : Disk) (p : Path) {name : Text} (hslash : '/' ∉ name) :
    d.start (p.above ++ name) = d.start p.above ∧
      (p.above ++ name).splitOn '/' = (p.above.splitOn '/').dropLast ++ [name] := by
  rcases p.above_nil_or with ha | ⟨head, ha⟩
  · have hhead : name.head? ≠ some '/' := fun he => hslash (List.mem_of_mem_head? he)
    rw [ha, List.nil_append, List.splitOn_eq_singleton hslash]
    exact ⟨if_neg hhead, rfl⟩
  · have hname : head ++ "/" ++ name = head ++ '/' :: name := by simp
    have hinit : (head ++ "/").splitOn '/' = head.splitOn '/' ++ [[]] :=
      splitOn_below head (by simp)
    rw [ha, hname, splitOn_below head hslash, hinit, List.dropLast_concat]
    exact ⟨start_below .., rfl⟩

/-- A name behind what is above the path is looked up in the directory, also when there is more on
the disk. -/
theorem Beside.spot_above (h : d.Beside p left dir) (hx : Extends d d') {name : Text}
    (hne : name ≠ []) (hslash : '/' ∉ name) (hnul : '\x00' ∉ name) :
    d'.spot last (p.above ++ name) = d'.walk last left dir [name] := by
  have hz : '\x00' ∉ p.above ++ name := by simp [h.nul, hnul]
  have hcwd : d'.start p.above = d.start p.above := by rw [start, start, hx.cwd_eq]
  obtain ⟨hstart, hsplit⟩ := start_above d' p hslash
  rw [spot_eq_walk (by simp [hne]) hz, hsplit, hstart, hcwd]
  exact (h.passes.extends hx).walk_append (.inl (by simp))

/-- If a name behind what is above the path gets anywhere, then the directory is there. -/
theorem housed_of_spot {name : Text} {spot : Spot} (hslash : '/' ∉ name)
    (h : d.spot last (p.above ++ name) = .ok spot) : d.Housed p := by
  obtain ⟨hne, hz⟩ := spot_ok h
  obtain ⟨hstart, hsplit⟩ := start_above d p hslash
  rw [spot_eq_walk hne hz, hsplit, hstart] at h
  obtain ⟨left, dir, hp, hdir⟩ := exists_passes_init h
  exact ⟨left, dir, hp, hdir, fun hm => hz (List.mem_append_left _ hm)⟩

/-- A path without a name at its end leads to its directory. -/
theorem beside_of_nameless {spot : Spot} (hname : p.fileName? = none)
    (h : d.spot last p.text = .ok spot) :
    ∃ dir, spot = .taken dir .directory ∧ d.Beside p maxLinks dir := by
  obtain ⟨hne, -⟩ := spot_ok h
  obtain ht | ht | ht | ht := Path.text_of_nameless hname
  · exact absurd ht hne
  · have habove : p.above = "./" := by rw [Path.above, ht]; rfl
    rw [ht] at h
    have hw : d.walk last maxLinks d.cwd ["."] = .ok spot := h
    have hdir := directory_of_walk hw
    rw [walk_step hdir (.stay (.inr rfl)) fun hne => absurd rfl hne, List.append_nil,
      walk_of_entry hdir] at hw
    refine ⟨d.cwd, (Except.ok.inj hw).symm, ?_⟩
    exact ⟨by rw [habove]; exact passes_of_stay hdir (by decide), hdir, by rw [habove]; decide⟩
  all_goals
    have habove : p.above = p.text := by rw [Path.above, ht]; rfl
    rw [ht] at h habove
    exact ⟨[], (Except.ok.inj h).symm, by rw [habove]; exact passes_of_stay rfl (by decide), rfl,
      by rw [habove]; decide⟩

theorem housed_of_find (h : d.find p.text = .ok (place, e)) : d.Housed p := by
  have hspot := spot_of_find h
  cases hname : p.fileName? with
  | none =>
    obtain ⟨dir, -, hb⟩ := beside_of_nameless hname hspot
    exact ⟨maxLinks, dir, hb⟩
  | some name =>
    obtain ⟨hplain, htext⟩ := Path.text_of_fileName? hname
    rw [htext] at hspot
    exact housed_of_spot hplain.2.2.2 hspot

/-- The directory of a path that names nothing above it but the top is the top. -/
theorem exists_beside_top_iff (ha : p.above = "/" ∨ p.above = "//") :
    (∃ left, d.Beside p left dir) ↔ dir = [] := by
  have hp : d.Passes maxLinks (d.start p.above) (p.above.splitOn '/').dropLast maxLinks [] := by
    rcases ha with ha | ha <;> rw [ha] <;> exact passes_of_stay rfl (by decide)
  have hz : '\x00' ∉ p.above := by
    rcases ha with ha | ha <;> rw [ha] <;> decide
  constructor
  · rintro ⟨left, h⟩
    exact h.passes.unique hp
  · rintro rfl
    exact ⟨maxLinks, hp, rfl, hz⟩

/-- The path of the directory above leads to the directory. -/
theorem find_parent_iff (hq : p.parent? = some q) :
    d.find q.text = .ok (dir, .directory) ↔ ∃ left, d.Beside p left dir := by
  have htop : d.find (Path.ofText "/").text = .ok (dir, .directory) ↔ dir = [] := by
    have hfind : d.find (Path.ofText "/").text = .ok ([], .directory) := rfl
    rw [hfind]
    simp [eq_comm]
  have hback := p.not_mem_text
  generalize ht : p.text = text at hback
  have hs := p.shape
  rw [ht] at hs
  cases hs with
  | empty | here | top => simp [Path.parent?, ht, Text.cutLast] at hq
  | bare hn => simp [Path.parent?_of_bare (ht ▸ hn)] at hq
  | network =>
    have hroot : Path.ofText "/" = q := by simpa [Path.parent?, ht, Text.cutLast] using hq
    rw [← hroot, htop, exists_beside_top_iff (.inr (by rw [Path.above, ht]; rfl))]
  | @below head name hn hclean =>
    have habove := Path.above_of_below ht hn
    rw [Path.parent?_of_below ht hn] at hq
    obtain rfl := Option.some.inj hq
    by_cases hhead : head = []
    · rw [if_pos hhead, htop, exists_beside_top_iff (.inl (by rw [habove, hhead]; rfl))]
    have htext : (Path.ofText head).text = head := by
      show Path.clean (Path.slashes head) = head
      rw [Path.slashes_eq_self fun hm => hback (List.mem_append_left _ hm), hclean hhead]
    have hstart : d.start (head ++ "/") = d.start head := by
      obtain ⟨c, rest, rfl⟩ := List.exists_cons_of_ne_nil hhead
      rfl
    have hinit : ((head ++ "/").splitOn '/').dropLast = head.splitOn '/' := by
      rw [show (head ++ "/" : Text) = head ++ '/' :: [] from rfl, splitOn_below head (by simp),
        List.dropLast_concat]
    rw [if_neg hhead, htext]
    constructor
    · intro h
      obtain ⟨left, hp, hdir⟩ := exists_passes_of_find h
      have hz := (spot_ok (spot_of_find h)).2
      refine ⟨left, by rw [habove, hstart, hinit]; exact hp, hdir, ?_⟩
      rw [habove]
      simpa using hz
    · rintro ⟨left, hp, hdir, hz⟩
      rw [habove, hstart, hinit] at hp
      rw [habove] at hz
      exact find_of_passes hhead (fun hm => hz (List.mem_append_left _ hm)) hp hdir (by simp)

theorem makeDirectories_of_find (h : d.find q.text = .ok (place, .directory)) :
    d.makeDirectories q = (.ok (), d) := by
  obtain ⟨hne, -⟩ := spot_ok (spot_of_find h)
  obtain ⟨c, rest, ht⟩ := List.exists_cons_of_ne_nil hne
  have hlength : q.text.length = rest.length + 1 := by rw [ht, List.length_cons]
  have his : d.isDirectory q = true := by rw [isDirectory, h]
  rw [makeDirectories, hlength, makeDirectories.climb]
  by_cases hlong : maxPath < q.text.byteLength
  · have hmake : d.makeDirectory q = .error .nameTooLong := if_pos hlong
    rw [hmake]
    simp only [his, if_true]
  · have hmake : d.makeDirectory q = .error .alreadyExists := by
      obtain ⟨other, e, hs⟩ := spot_false_of_find h
      rw [makeDirectory, if_neg hlong, hs]
    rw [hmake]
    simp only [his, if_true]

theorem Beside.withParent_eq (h : d.Beside p left dir) : Writer.withParent d p = (.ok (), d) := by
  unfold Writer.withParent
  split
  next => rfl
  next parent hq => rw [makeDirectories_of_find ((find_parent_iff hq).mpr ⟨left, h⟩)]

theorem temporaryPath_eq (stamp : Nat) (p : Path) :
    Writer.temporaryPath stamp p =
      p.above ++ Writer.temporaryName stamp (p.fileName?.getD []) := by
  generalize ht : p.text = text
  have hs := p.shape
  rw [ht] at hs
  cases hs with
  | empty | here | top | network =>
    simp [Writer.temporaryPath, Path.fileName?, Path.above, ht, Text.cutLast]
  | bare hn =>
    rw [Writer.temporaryPath, Path.fileName?_of_bare (ht ▸ hn), Path.above_of_bare (ht ▸ hn),
      Text.cutLast_eq_none (ht ▸ hn.2.2.2)]
    rfl
  | below hn =>
    rw [Writer.temporaryPath, Path.fileName?_of_below ht hn, Path.above_of_below ht hn, ht,
      Text.cutLast_append hn.2.2.2]
    simp

/-- The name of the path's temporary neighbour. -/
def neighbour (d : Disk) (p : Path) : Text :=
  Writer.temporaryName d.stamp (p.fileName?.getD [])

/-- Nothing bears that name. -/
def Vacant (d : Disk) (p : Path) : Prop :=
  ∀ place e, d.spot false (Writer.temporaryPath d.stamp p) ≠ .ok (.taken place e)

instance (d : Disk) (p : Path) : Decidable (d.Vacant p) :=
  match h : d.spot false (Writer.temporaryPath d.stamp p) with
  | .ok (.taken place e) => .isFalse fun hv => hv place e h
  | .ok (.free _) => .isTrue fun _ _ => by simp [h]
  | .error _ => .isTrue fun _ _ => by simp [h]

/-- Neither the name nor the path of the neighbour is too long. -/
def Fits (d : Disk) (p : Path) : Prop :=
  (d.neighbour p).byteLength ≤ maxName ∧ (Writer.temporaryPath d.stamp p).byteLength ≤ maxPath

instance (d : Disk) (p : Path) : Decidable (d.Fits p) :=
  inferInstanceAs (Decidable (_ ∧ _))

/-- The path's own name is shorter than that of its neighbour. -/
theorem Fits.name_le (h : d.Fits p) {name : Text} (hname : p.fileName? = some name) :
    name.byteLength ≤ maxName := by
  have hle := byteLength_le_temporaryName d.stamp name
  have hn := h.1
  rw [neighbour, hname] at hn
  exact Nat.le_trans hle hn

theorem plain_neighbour (d : Disk) (p : Path) : Path.Plain (d.neighbour p) := by
  refine plain_temporaryName d.stamp ?_
  cases hf : p.fileName? with
  | none => simp
  | some name => exact (Path.text_of_fileName? hf).1.2.2.2

theorem not_mem_neighbour (d : Disk) {p : Path} (hz : '\x00' ∉ p.text) : '\x00' ∉ d.neighbour p := by
  refine not_mem_temporaryName d.stamp ?_ (by decide) (by decide)
  cases hf : p.fileName? with
  | none => simp
  | some name =>
    rw [(Path.text_of_fileName? hf).2] at hz
    exact fun hm => hz (List.mem_append_right _ hm)

/-- A path without a name at its end does not lead to a file. -/
theorem exists_fileName? {bytes : Bytes} {mode : Mode}
    (h : d.find p.text = .ok (place, .file bytes mode)) : ∃ name, p.fileName? = some name := by
  cases hname : p.fileName? with
  | none =>
    obtain ⟨dir, hs, -⟩ := beside_of_nameless hname (spot_of_find h)
    simp at hs
  | some name => exact ⟨name, rfl⟩

theorem neighbour_ne {name : Text} (hname : p.fileName? = some name) : d.neighbour p ≠ name := by
  intro he
  have hlen := length_temporaryName d.stamp name
  rw [neighbour, hname] at he
  change Writer.temporaryName d.stamp name = name at he
  rw [he] at hlen
  omega

/-- The mode that a new neighbour gets does not depend on its being there, though a link may lead to
it. -/
theorem mode?_set {new : Text} (hfree : d.entry? (dir ++ [new]) = none) :
    (Writer.mode? (d.set (dir ++ [new]) (.file [] d.modes.file)) p).getD d.modes.file =
      (Writer.mode? d p).getD d.modes.file := by
  cases hfind : d.find p.text with
  | ok found =>
    have hlater := find_extends (extends_set hfree (.file [] d.modes.file)) hfind
    rw [Writer.mode?, Writer.mode?, hfind, hlater]
    rfl
  | error cause =>
    rw [Writer.mode?, Writer.mode?, hfind]
    cases hlater : (d.set (dir ++ [new]) (.file [] d.modes.file)).find p.text with
    | error cause => rfl
    | ok found =>
      obtain ⟨place, e⟩ := found
      rcases find_of_set hfree hlater with hfound | ⟨-, rfl⟩
      · simp [hfind] at hfound
      · rfl

namespace Beside

variable (h : d.Beside p left dir)

include h

theorem spot_temporaryPath (hz : '\x00' ∉ d.neighbour p) (hx : Extends d d') :
    d'.spot last (Writer.temporaryPath d.stamp p) = d'.walk last left dir [d.neighbour p] := by
  obtain ⟨hne, -, -, hslash⟩ := plain_neighbour d p
  rw [temporaryPath_eq]
  exact h.spot_above hx hne hslash hz

theorem free (hv : d.Vacant p) (hz : '\x00' ∉ d.neighbour p) :
    d.entry? (dir ++ [d.neighbour p]) = none := by
  cases he : d.entry? (dir ++ [d.neighbour p]) with
  | none => rfl
  | some e =>
    refine absurd ?_ (hv (dir ++ [d.neighbour p]) e)
    rw [h.spot_temporaryPath hz (Extends.refl d),
      walk_entry h.directory (descends_of_plain (plain_neighbour d p)) he]

theorem vacant (hfree : d.entry? (dir ++ [d.neighbour p]) = none) : d.Vacant p := by
  intro place e he
  have hz := (spot_ok he).2
  rw [temporaryPath_eq] at hz
  have hn := descends_of_plain (plain_neighbour d p)
  rw [h.spot_temporaryPath (fun hm => hz (List.mem_append_right _ hm)) (Extends.refl d)] at he
  rcases free_or_long h.directory hn hfree with hw | hw
  · exact absurd (hw.symm.trans he) (by simp)
  · exact absurd (hw.symm.trans he) (by simp)

/-- A writer gets the neighbour, empty, with the mode of what the path leads to. -/
theorem create_eq {d₀ : Disk} (hparent : Writer.withParent d₀ p = (.ok (), d)) (hfit : d.Fits p)
    (hz : '\x00' ∉ d.neighbour p) (hfree : d.entry? (dir ++ [d.neighbour p]) = none) :
    Writer.create d₀ p =
      (.ok ⟨p, Writer.temporaryPath d.stamp p, dir ++ [d.neighbour p]⟩,
        d.set (dir ++ [d.neighbour p]) (.file [] ((Writer.mode? d p).getD d.modes.file))) := by
  have hspot : d.spot true (Writer.temporaryPath d.stamp p) =
      .ok (.free (dir ++ [d.neighbour p])) := by
    rw [h.spot_temporaryPath hz (Extends.refl d),
      walk_free h.directory (descends_of_plain (plain_neighbour d p)) hfree hfit.1]
  have hopen : d.truncate (Writer.temporaryPath d.stamp p) = .ok (dir ++ [d.neighbour p],
      d.set (dir ++ [d.neighbour p]) (.file [] d.modes.file)) := by
    rw [truncate, if_neg (Nat.not_lt.mpr hfit.2), hspot]
  have hmode := mode?_set (p := p) hfree
  rw [Writer.create, hparent]
  dsimp only
  rw [hopen]
  dsimp only
  cases hlater : Writer.mode? (d.set (dir ++ [d.neighbour p]) (.file [] d.modes.file)) p with
  | some mode =>
    rw [hlater, Option.getD_some] at hmode
    rw [← hmode]
    exact congrArg (Prod.mk _) (set_set ..)
  | none =>
    rw [hlater, Option.getD_none] at hmode
    rw [← hmode]

/-- Where the neighbour cannot be named there is no writer. -/
theorem create_of_not_fits {d₀ : Disk} (hparent : Writer.withParent d₀ p = (.ok (), d))
    (hfit : ¬d.Fits p) (hz : '\x00' ∉ d.neighbour p)
    (hfree : d.entry? (dir ++ [d.neighbour p]) = none) :
    Writer.create d₀ p = (.error ⟨Writer.temporaryPath d.stamp p, .nameTooLong⟩, d) := by
  have hopen : d.truncate (Writer.temporaryPath d.stamp p) = .error .nameTooLong := by
    by_cases hpath : maxPath < (Writer.temporaryPath d.stamp p).byteLength
    · exact if_pos hpath
    · have hlong : maxName < (d.neighbour p).byteLength :=
        Nat.not_le.mp fun hle => hfit ⟨hle, Nat.not_lt.mp hpath⟩
      rw [truncate, if_neg hpath, h.spot_temporaryPath hz (Extends.refl d),
        walk_long h.directory (descends_of_plain (plain_neighbour d p)) hfree hlong]
  rw [Writer.create, hparent]
  dsimp only
  rw [hopen]

/-- The last name of a path is looked up in the directory. -/
theorem spot_name (hz : '\x00' ∉ p.text) (hx : Extends d d') {name : Text}
    (hname : p.fileName? = some name) : d'.spot last p.text = d'.walk last left dir [name] := by
  obtain ⟨hplain, htext⟩ := Path.text_of_fileName? hname
  rw [htext] at hz ⊢
  exact h.spot_above hx hplain.1 hplain.2.2.2 fun hm => hz (List.mem_append_right _ hm)

/-- The path's own entry stands under its last name. -/
theorem spot_own (hz : '\x00' ∉ p.text) (hx : Extends d d') {name : Text}
    (hname : p.fileName? = some name)
    (hfit : d'.entry? (dir ++ [name]) = none → name.byteLength ≤ maxName) : d'.spot false p.text =
      .ok ((d'.entry? (dir ++ [name])).elim (.free (dir ++ [name])) (.taken (dir ++ [name]))) := by
  have hn := descends_of_plain (Path.text_of_fileName? hname).1
  rw [h.spot_name hz hx hname, walk_singleton (hx.kept _ _ h.directory) hn (by simp) hfit]

/-- The last name of a path to a file leads from the directory to no directory. -/
theorem leaf {bytes : Bytes} {mode : Mode} (hfind : d.find p.text = .ok (place, .file bytes mode))
    {name : Text} (hname : p.fileName? = some name) (links left' : Nat) (other : Place)
    (hp : d.Passes links dir [name] left' other) : d.entry? other ≠ some .directory := by
  obtain ⟨-, hz⟩ := spot_ok (spot_of_find hfind)
  have hspot := spot_of_find hfind
  rw [h.spot_name hz (Extends.refl d) hname] at hspot
  obtain ⟨left'', hplace, he⟩ := exists_passes hspot
  obtain rfl := hplace.unique hp
  simp [he]

/-- The way to the path does not lead through an entry that leads to no directory. -/
theorem remove {name : Text} (hn : Descends name)
    (hno : ∀ links left' place, d.Passes links dir [name] left' place →
      d.entry? place ≠ some .directory) : (d.remove (dir ++ [name])).Beside p left dir :=
  ⟨h.passes.remove h.directory hn hno h.directory,
    by rw [entry?_remove (by simp), if_neg (by simp), h.directory], h.nul⟩

/-- A path leads to a file that has taken the place of its own entry exactly if the way to it did not
lead through that entry, and to nothing else. -/
theorem find_set_iff {name : Text} (hname : p.fileName? = some name) (hz : '\x00' ∉ p.text)
    (bytes : Bytes) (mode : Mode) :
    (d.set (dir ++ [name]) (.file bytes mode)).find p.text = .ok (place, e) ↔
      (d.remove (dir ++ [name])).Housed p ∧ place = dir ++ [name] ∧ e = .file bytes mode := by
  have hn := descends_of_plain (Path.text_of_fileName? hname).1
  have hgone : entry? (d.remove (dir ++ [name])) (dir ++ [name]) = none := by
    rw [entry?_remove (by simp), if_pos rfl]
  have hentry : entry? (d.set (dir ++ [name]) (.file bytes mode)) (dir ++ [name]) =
      some (.file bytes mode) := by rw [entry?_set (by simp), if_pos rfl]
  have hx : Extends (d.remove (dir ++ [name])) (d.set (dir ++ [name]) (.file bytes mode)) := by
    rw [← set_remove]
    exact extends_set hgone _
  have hfound : (d.remove (dir ++ [name])).Housed p →
      (d.set (dir ++ [name]) (.file bytes mode)).find p.text =
        .ok (dir ++ [name], .file bytes mode) := by
    rintro ⟨left', dir', hb⟩
    obtain rfl : dir' = dir :=
      (hb.passes.extends (extends_remove (by simp))).unique h.passes
    have hdir := hx.kept _ _ hb.directory
    rw [find, hb.spot_name hz hx hname,
      walk_step hdir (.down hn hentry (by simp)) (by simp), List.append_nil, walk_of_entry hentry]
  constructor
  · intro hfind
    obtain ⟨left', dir', hp, hdir, hnul⟩ := housed_of_find hfind
    have hother : dir' ≠ dir ++ [name] := by
      rintro rfl
      simp [hentry] at hdir
    have hhoused : (d.remove (dir ++ [name])).Housed p := by
      rw [← set_remove] at hp hdir
      rw [entry?_set (by simp), if_neg hother] at hdir
      exact ⟨left', dir', (hp.of_set hgone).resolve_right fun hend => hother hend.1, hdir, hnul⟩
    exact ⟨hhoused, Prod.mk.inj (Except.ok.inj (hfind.symm.trans (hfound hhoused)))⟩
  · rintro ⟨hhoused, rfl, rfl⟩
    exact hfound hhoused

/-- The neighbour is found by its name once it is there. -/
theorem spot_neighbour (hz : '\x00' ∉ d.neighbour p)
    (hfree : d.entry? (dir ++ [d.neighbour p]) = none) (e : Entry) :
    (d.set (dir ++ [d.neighbour p]) e).spot false (Writer.temporaryPath d.stamp p) =
      .ok (.taken (dir ++ [d.neighbour p]) e) := by
  have hx := extends_set hfree e
  have hentry : entry? (d.set (dir ++ [d.neighbour p]) e) (dir ++ [d.neighbour p]) = some e := by
    rw [entry?_set (by simp), if_pos rfl]
  rw [h.spot_temporaryPath hz hx,
    walk_entry (hx.kept _ _ h.directory) (descends_of_plain (plain_neighbour d p)) hentry]

theorem drop_eq (hz : '\x00' ∉ d.neighbour p)
    (hfree : d.entry? (dir ++ [d.neighbour p]) = none) (bytes : Bytes) (mode : Mode) :
    Writer.drop ⟨p, Writer.temporaryPath d.stamp p, dir ++ [d.neighbour p]⟩
      (d.set (dir ++ [d.neighbour p]) (.file bytes mode)) = d := by
  rw [Writer.drop]
  dsimp only
  rw [h.spot_neighbour hz hfree]
  exact remove_set hfree _

/-- A commit puts what was written in the place of the path's own entry, if that is no directory. -/
theorem commit_eq {name : Text} (hname : p.fileName? = some name) (hz : '\x00' ∉ p.text)
    (hfit : d.Fits p) (hfree : d.entry? (dir ++ [d.neighbour p]) = none)
    (hown : d.entry? (dir ++ [name]) ≠ some .directory) (bytes : Bytes) (mode : Mode) :
    Writer.commit ⟨p, Writer.temporaryPath d.stamp p, dir ++ [d.neighbour p]⟩
        (d.set (dir ++ [d.neighbour p]) (.file bytes mode)) =
      (.ok (), d.set (dir ++ [name]) (.file bytes mode)) := by
  have hother : dir ++ [name] ≠ dir ++ [d.neighbour p] := by
    simpa using (neighbour_ne hname).symm
  have hland : Writer.landing ⟨p, Writer.temporaryPath d.stamp p, dir ++ [d.neighbour p]⟩
      (d.set (dir ++ [d.neighbour p]) (.file bytes mode)) = .ok (dir ++ [name]) := by
    rw [Writer.landing, if_neg (by simp [hname])]
    dsimp only
    rw [h.spot_own hz (extends_set hfree _) hname fun _ => hfit.name_le hname,
      entry?_set (by simp), if_neg hother]
    cases he : d.entry? (dir ++ [name]) with
    | none => rfl
    | some old =>
      cases old with
      | directory => exact absurd he hown
      | file | link => rfl
  rw [Writer.commit, hland]
  dsimp only
  rw [h.spot_neighbour (not_mem_neighbour d hz) hfree]
  dsimp only
  rw [remove_set hfree]

end Beside

/-- Only the path's own entry, which may have been a link, is another. It is a file with the new
content, and its mode is what writing leaves of the mode of the file that the path led to. -/
def Swapped (d : Disk) (p : Path) (new : Bytes) (d' : Disk) : Prop :=
  ∃ own old place bytes mode, d.spot false p.text = .ok (.taken own old) ∧
    d.find p.text = .ok (place, .file bytes mode) ∧
    d' = d.set own (.file new (d.modes.kept new mode)) ∧
    d'.find p.text = .ok (own, .file new (d.modes.kept new mode))

/-- A path that leads somewhere gets a writer. Dropping it gives the disk back, and if the path leads
to a file, then committing it only swaps the path's own entry. -/
theorem exists_writer (hv : d.Vacant p) (hfit : d.Fits p) (hfind : d.find p.text = .ok (place, e)) :
    ∃ w d₁, Writer.create d p = (.ok w, d₁) ∧ (∀ new, w.drop (w.write d₁ new) = d) ∧
      ∀ bytes mode, e = .file bytes mode → ∀ new,
        ∃ d', w.commit (w.write d₁ new) = (.ok (), d') ∧ d.Swapped p new d' := by
  obtain ⟨left, dir, hb⟩ := housed_of_find hfind
  obtain ⟨-, hz⟩ := spot_ok (spot_of_find hfind)
  have hnul := not_mem_neighbour d hz
  have hne : dir ++ [d.neighbour p] ≠ [] := by simp
  have hfree := hb.free hv hnul
  refine ⟨_, _, hb.create_eq hb.withParent_eq hfit hnul hfree, fun new => ?_,
    fun bytes mode he new => ?_⟩
  · rw [write_set d p _ hne, hb.drop_eq hnul hfree]
  · subst he
    have hmode : Writer.mode? d p = some mode := by rw [Writer.mode?, hfind]
    obtain ⟨name, hname⟩ := exists_fileName? hfind
    have hleaf := hb.leaf hfind hname
    have hn := descends_of_plain (Path.text_of_fileName? hname).1
    have hown : d.entry? (dir ++ [name]) ≠ some .directory :=
      fun he => hleaf 0 0 _ (.step hb.directory (.down hn he (by simp)) .done) he
    obtain ⟨own, old, hold⟩ := spot_false_of_find hfind
    have hspot := hb.spot_own hz (Extends.refl d) hname fun _ => hfit.name_le hname
    rw [hold] at hspot
    obtain rfl : own = dir ++ [name] := by
      cases he : d.entry? (dir ++ [name]) with
      | none => simp [he] at hspot
      | some other =>
        rw [he] at hspot
        exact (Spot.taken.inj (Except.ok.inj hspot)).1
    have hfound := (hb.find_set_iff hname hz new (d.modes.kept new mode)).mpr
      ⟨⟨left, dir, hb.remove hn hleaf⟩, rfl, rfl⟩
    rw [hmode, write_set d p _ hne]
    exact ⟨_, hb.commit_eq hname hz hfit hfree hown new _, _, old, place, bytes, mode, hold, hfind,
      rfl, hfound⟩

/-- A path that leads somewhere gets no writer if its neighbour cannot be named, and then nothing
changes. -/
theorem create_of_not_fits (hv : d.Vacant p) (hfit : ¬d.Fits p)
    (hfind : d.find p.text = .ok (place, e)) :
    Writer.create d p = (.error ⟨Writer.temporaryPath d.stamp p, .nameTooLong⟩, d) := by
  obtain ⟨left, dir, hb⟩ := housed_of_find hfind
  have hnul := not_mem_neighbour d (spot_ok (spot_of_find hfind)).2
  exact hb.create_of_not_fits hb.withParent_eq hfit hnul (hb.free hv hnul)

end BlockSync.Disk
