import BlockSync.Disk
import BlockSync.Proofs.Path
import BlockSync.Proofs.SortedMap
import Mathlib.Data.List.Induction

/-! Paths without links. Following a path ends at a place that no link stands for, and the path
that spells this place leads there again. -/

namespace BlockSync.Disk

/-- Everything on the disk stands in a directory. -/
def Rooted (d : Disk) : Prop :=
  ∀ e ∈ d.entries.entries, d.entry? e.1.dropLast = some .directory

/-- Every name on the disk can be spelled in a path, and everything stands in a directory. -/
structure WellFormed (d : Disk) : Prop where
  plain : ∀ e ∈ d.entries.entries, ∀ name ∈ e.1,
    Path.Plain name ∧ '\\' ∉ name ∧ '\x00' ∉ name
  rooted : ∀ e ∈ d.entries.entries, d.entry? e.1.dropLast = some .directory
  here : d.entry? d.cwd = some .directory

/-- A disk with nothing on it. -/
def bare : Disk := ⟨∅, [], 0, .usual⟩

theorem ext_entries {d d' : Disk} (he : ∀ place, d.entries.find? place = d'.entries.find? place)
    (hc : d.cwd = d'.cwd) (hs : d.stamp = d'.stamp) (hm : d.modes = d'.modes) : d = d' := by
  obtain ⟨entries, cwd, stamp, modes⟩ := d
  obtain ⟨entries', cwd', stamp', modes'⟩ := d'
  obtain rfl : entries = entries' := SortedMap.ext_find? he
  obtain rfl : cwd = cwd' := hc
  obtain rfl : stamp = stamp' := hs
  obtain rfl : modes = modes' := hm
  rfl

@[simp]
theorem entry?_nil (d : Disk) : d.entry? [] = some .directory := rfl

theorem entry?_of_ne {d : Disk} {place : Place} (h : place ≠ []) :
    d.entry? place = d.entries.find? place :=
  if_neg h

theorem mem_entries_of_entry {d : Disk} {place : Place} {e : Entry} (h : place ≠ [])
    (he : d.entry? place = some e) : (place, e) ∈ d.entries.entries := by
  rw [entry?_of_ne h] at he
  exact SortedMap.mem_entries_iff.mpr he

theorem WellFormed.plain_of_entry {d : Disk} (hd : d.WellFormed) {place : Place} {e : Entry}
    (he : d.entry? place = some e) {name : Text} (hn : name ∈ place) :
    Path.Plain name ∧ '\\' ∉ name ∧ '\x00' ∉ name :=
  hd.plain _ (mem_entries_of_entry (List.ne_nil_of_mem hn) he) name hn

theorem Rooted.entry?_dropLast {d : Disk} (hd : d.Rooted) {place : Place} {e : Entry}
    (he : d.entry? place = some e) : d.entry? place.dropLast = some .directory := by
  by_cases h : place = []
  · simp [h]
  · exact hd _ (mem_entries_of_entry h he)

theorem WellFormed.entry?_dropLast {d : Disk} (hd : d.WellFormed) {place : Place} {e : Entry}
    (he : d.entry? place = some e) : d.entry? place.dropLast = some .directory :=
  Rooted.entry?_dropLast hd.rooted he

theorem WellFormed.entry?_of_append {d : Disk} (hd : d.WellFormed) {place more : Place} {e : Entry}
    (he : d.entry? (place ++ more) = some e) (hm : more ≠ []) :
    d.entry? place = some .directory := by
  induction more using List.reverseRecOn generalizing e with
  | nil => exact absurd rfl hm
  | append_singleton more name ih =>
    have hh := hd.entry?_dropLast he
    rw [← List.append_assoc, List.dropLast_concat] at hh
    by_cases h : more = []
    · simpa [h] using hh
    · exact ih hh h

theorem walk_cases (d : Disk) (last : Bool) (links : Nat) :
    ∃ follow, d.walk last links = d.walkNames last follow := by
  cases links with
  | zero => exact ⟨_, rfl⟩
  | succ links => exact ⟨_, rfl⟩

theorem walkNames_append {d : Disk} {last : Bool} {follow : Place → List Text → Except Cause Spot}
    {here names : Place} (hp : ∀ name ∈ names, Path.Plain name)
    (hdir : ∀ pre post, names = pre ++ post → d.entry? (here ++ pre) = some .directory)
    (rest : List Text) :
    d.walkNames last follow here (names ++ rest) = d.walkNames last follow (here ++ names) rest := by
  induction names generalizing here with
  | nil => rw [List.append_nil, List.nil_append]
  | cons name names ih =>
    obtain ⟨hn, hdot, hdots, -⟩ := hp name (by simp)
    have hh : d.entry? here = some .directory := by simpa using hdir [] (name :: names) rfl
    have hnext : d.entry? (here ++ [name]) = some .directory := hdir [name] names rfl
    have hmore : d.walkNames last follow (here ++ [name]) (names ++ rest) =
        d.walkNames last follow (here ++ [name] ++ names) rest :=
      ih (fun n hn => hp n (by simp [hn]))
        (fun pre post hs => by simpa using hdir (name :: pre) post (by simp [hs]))
    rw [List.append_assoc, List.singleton_append] at hmore
    rw [List.cons_append, walkNames]
    simp only [hh, ne_eq, not_true_eq_false, if_false, hn, hdot, hdots, or_self, hnext]
    exact hmore

/-- A name that leads down from a directory. -/
structure Descends (name : Text) : Prop where
  ne_stay : ¬(name = [] ∨ name = ".")
  ne_up : name ≠ ".."

theorem descends_of_plain {name : Text} (h : Path.Plain name) : Descends name :=
  ⟨fun he => he.elim h.1 h.2.1, h.2.2.1⟩

theorem walkNames_last {d : Disk} {last : Bool} {follow : Place → List Text → Except Cause Spot}
    {here : Place} {name : Text} (hn : Descends name) (hh : d.entry? here = some .directory)
    (hl : last = true → ∀ target, d.entry? (here ++ [name]) ≠ some (.link target))
    (hfit : d.entry? (here ++ [name]) = none → name.byteLength ≤ maxName) :
    d.walkNames last follow here [name] =
      .ok ((d.entry? (here ++ [name])).elim (.free (here ++ [name])) (.taken (here ++ [name]))) := by
  rw [walkNames, if_neg (by simpa using hh), if_neg hn.ne_stay, if_neg hn.ne_up]
  cases he : d.entry? (here ++ [name]) with
  | none =>
    dsimp only
    rw [if_neg (Nat.not_lt.mpr (hfit he))]
    rfl
  | some e =>
    cases e with
    | file bytes mode => simp [walkNames, he]
    | link target =>
      have hlast : last = false := by
        by_contra hlast
        exact hl (by simpa using hlast) target he
      subst hlast
      rfl
    | directory => simp [walkNames, he]

/-- What a walk tells to be at a place is there. -/
theorem entry?_of_walkNames {d : Disk} {last : Bool}
    {follow : Place → List Text → Except Cause Spot} {here names place : Place} {e : Entry}
    (hf : ∀ here names, follow here names = .ok (.taken place e) → d.entry? place = some e)
    (h : d.walkNames last follow here names = .ok (.taken place e)) : d.entry? place = some e := by
  fun_induction walkNames d last follow here names with
  | case1 here entry he =>
    obtain ⟨rfl, rfl⟩ := Spot.taken.inj (Except.ok.inj h)
    exact he
  | case4 here name rest hh hn ih => exact ih h
  | case5 here rest hh hn ih => exact ih h
  | case9 here name rest hh hn hdots target he hlast =>
    obtain ⟨rfl, rfl⟩ := Spot.taken.inj (Except.ok.inj h)
    exact he
  | case10 => exact hf _ _ h
  | case11 here name rest hh hn hdots e' hlink he ih => exact ih h
  | _ => simp at h

theorem entry?_of_taken {d : Disk} {last : Bool} {links : Nat} {here names place : Place}
    {e : Entry}
    (h : d.walk last links here names = .ok (.taken place e)) : d.entry? place = some e := by
  induction links generalizing here names with
  | zero => exact entry?_of_walkNames (fun _ _ hf => by simp at hf) h
  | succ links ih => exact entry?_of_walkNames (fun _ _ hf => ih hf) h

theorem splitOn_placeText {place : Place} (hp : ∀ name ∈ place, Path.Plain name) :
    (placeText place).splitOn '/' = [] :: if place = [] then [[]] else place := by
  have hs : (placeText place).splitOn '/' = [] :: (Text.joinWith "/" place).splitOn '/' :=
    List.splitOn_append_cons_self [] _
  rw [hs]
  by_cases h : place = []
  · subst h
    rfl
  · rw [Path.splitOn_joinWith hp h, if_neg h]

theorem not_mem_placeText {place : Place} {c : Char} (hc : c ≠ '/')
    (h : ∀ name ∈ place, c ∉ name) : c ∉ placeText place := by
  intro hm
  rcases List.mem_cons.mp hm with hm | hm
  · exact hc hm
  · rcases Text.mem_or_of_mem_joinWith hm with hm | ⟨name, hn, hm⟩
    · exact hc (by simpa using hm)
    · exact h name hn hm

theorem spot_placeText_eq (d : Disk) {place : Place}
    (hp : ∀ name ∈ place, Path.Plain name ∧ '\x00' ∉ name) (last : Bool) :
    ∃ follow, d.spot last (placeText place) = d.walkNames last follow [] place := by
  have hz : '\x00' ∉ placeText place := not_mem_placeText (by decide) fun name hn => (hp name hn).2
  have hne : placeText place ≠ [] := by simp [placeText]
  have hhead : (placeText place).head? = some '/' := rfl
  obtain ⟨follow, hw⟩ := walk_cases d last maxLinks
  refine ⟨follow, ?_⟩
  rw [spot, if_neg hne, if_neg hz, if_pos hhead, splitOn_placeText fun name hn => (hp name hn).1, hw,
    walkNames]
  by_cases h : place = []
  · subst h
    simp [walkNames]
  · simp [h]

theorem WellFormed.spot_neighbour {d : Disk} (hd : d.WellFormed) {dir : Place} {name : Text}
    (hdir : d.entry? dir = some .directory) (hn : Path.Plain name) (hz : '\x00' ∉ name)
    {e : Entry} (he : d.entry? (dir ++ [name]) = some e) (hl : ∀ target, e ≠ .link target)
    (last : Bool) :
    d.spot last (placeText (dir ++ [name])) = .ok (.taken (dir ++ [name]) e) := by
  have hp : ∀ n ∈ dir ++ [name], Path.Plain n ∧ '\x00' ∉ n := by
    intro n hm
    rcases List.mem_append.mp hm with hm | hm
    · exact ⟨(hd.plain_of_entry hdir hm).1, (hd.plain_of_entry hdir hm).2.2⟩
    · exact List.mem_singleton.mp hm ▸ ⟨hn, hz⟩
  have habove : ∀ pre post, dir = pre ++ post → d.entry? ([] ++ pre) = some .directory := by
    rintro pre post rfl
    by_cases h : post = []
    · simpa [h] using hdir
    · exact hd.entry?_of_append hdir h
  obtain ⟨follow, hs⟩ := spot_placeText_eq d hp last
  rw [hs, walkNames_append (fun n hm => (hp n (List.mem_append_left _ hm)).1) habove]
  rw [List.nil_append, walkNames_last (descends_of_plain hn) hdir (by simpa [he] using fun _ => hl)
    (by simp [he]), he]
  rfl

theorem WellFormed.spot_placeText {d : Disk} (hd : d.WellFormed) {place : Place} {e : Entry}
    (he : d.entry? place = some e) (hl : ∀ target, e ≠ .link target) (last : Bool) :
    d.spot last (placeText place) = .ok (.taken place e) := by
  rcases List.eq_nil_or_concat place with rfl | ⟨dir, name, rfl⟩
  · obtain rfl : e = .directory := by simpa using he.symm
    have hnil : ∀ name ∈ ([] : Place), Path.Plain name ∧ '\x00' ∉ name := by simp
    obtain ⟨follow, hs⟩ := spot_placeText_eq d hnil last
    rw [hs, walkNames]
    rfl
  · rw [List.concat_eq_append] at he ⊢
    obtain ⟨hn, -, hz⟩ := hd.plain_of_entry he (List.mem_append_right dir (List.mem_singleton_self name))
    have hdir : d.entry? dir = some .directory := by simpa using hd.entry?_dropLast he
    exact hd.spot_neighbour hdir hn hz he hl last

theorem WellFormed.find_placeText {d : Disk} (hd : d.WellFormed) {place : Place} {e : Entry}
    (he : d.entry? place = some e) (hl : ∀ target, e ≠ .link target) :
    d.find (placeText place) = .ok (place, e) := by
  rw [find, hd.spot_placeText he hl]
  cases e with
  | link target => exact absurd rfl (hl target)
  | file | directory => rfl

theorem spot_of_find {d : Disk} {path : Text} {place : Place} {e : Entry}
    (h : d.find path = .ok (place, e)) : d.spot true path = .ok (.taken place e) := by
  unfold find at h
  split at h
  next => simp at h
  next hs =>
    obtain ⟨rfl, rfl⟩ := Prod.mk.inj (Except.ok.inj h)
    exact hs
  next => simp at h
  next => simp at h

theorem ne_link_of_find {d : Disk} {path : Text} {place : Place} {e : Entry}
    (h : d.find path = .ok (place, e)) (target : Text) : e ≠ .link target := by
  rintro rfl
  rw [find, spot_of_find h] at h
  simp at h

theorem entry?_of_find {d : Disk} {path : Text} {place : Place} {e : Entry}
    (h : d.find path = .ok (place, e)) : d.entry? place = some e := by
  have hs := spot_of_find h
  unfold spot at hs
  split at hs
  next => simp at hs
  next =>
    split at hs
    next => simp at hs
    next => exact entry?_of_taken hs

theorem ofText_placeText {place : Place}
    (hp : ∀ name ∈ place, Path.Plain name ∧ '\\' ∉ name) :
    (Path.ofText (placeText place)).text = placeText place := by
  have hb : '\\' ∉ placeText place := not_mem_placeText (by decide) fun name hn => (hp name hn).2
  show Path.clean (Path.slashes (placeText place)) = placeText place
  rw [Path.slashes_eq_self hb]
  have hk : Path.Kind.absolute = .empty → place = [] := by simp
  exact Path.clean_render (fun name hn => (hp name hn).1) hk

theorem WellFormed.text_ofText_placeText {d : Disk} (hd : d.WellFormed) {place : Place} {e : Entry}
    (he : d.entry? place = some e) : (Path.ofText (placeText place)).text = placeText place :=
  ofText_placeText fun _ hn => ⟨(hd.plain_of_entry he hn).1, (hd.plain_of_entry he hn).2.1⟩

theorem placeText_injective {p q : Place} (hp : ∀ name ∈ p, Path.Plain name)
    (hq : ∀ name ∈ q, Path.Plain name) (h : placeText p = placeText q) : p = q := by
  have hr : Path.render .absolute p = Path.render .absolute q := h
  rw [← Path.componentsOf_render hp, hr, Path.componentsOf_render hq]

theorem canonical_eq_ok_iff {d : Disk} {p q : Path} :
    d.canonical p = .ok q ↔
      ∃ place e, d.find p.text = .ok (place, e) ∧ q = .ofText (placeText place) := by
  unfold canonical
  cases h : d.find p.text with
  | error cause => simp [Except.map]
  | ok found =>
    simp only [Except.map, Except.ok.injEq]
    constructor
    · intro hq
      exact ⟨found.1, found.2, rfl, hq.symm⟩
    · rintro ⟨place, e, rfl, rfl⟩
      rfl

/-- A path and the path without links lead to the same. -/
theorem WellFormed.find_canonical {d : Disk} (hd : d.WellFormed) {p q : Path}
    (h : d.canonical p = .ok q) : d.find q.text = d.find p.text := by
  obtain ⟨place, e, hf, rfl⟩ := canonical_eq_ok_iff.mp h
  have he := entry?_of_find hf
  rw [hd.text_ofText_placeText he, hd.find_placeText he (ne_link_of_find hf), hf]

theorem WellFormed.canonical_canonical {d : Disk} (hd : d.WellFormed) {p q : Path}
    (h : d.canonical p = .ok q) : d.canonical q = .ok q := by
  obtain ⟨place, e, hf, rfl⟩ := canonical_eq_ok_iff.mp h
  exact canonical_eq_ok_iff.mpr ⟨place, e, (hd.find_canonical h).trans hf, rfl⟩

theorem WellFormed.isFile_canonical {d : Disk} (hd : d.WellFormed) {p q : Path}
    (h : d.canonical p = .ok q) : d.isFile q = d.isFile p := by
  rw [isFile, isFile, hd.find_canonical h]

theorem WellFormed.lines_canonical {d : Disk} (hd : d.WellFormed) {p q : Path}
    (h : d.canonical p = .ok q) : d.lines q = d.lines p := by
  rw [lines, lines, hd.find_canonical h]

theorem canonical_of_isFile {d : Disk} {p : Path} (h : d.isFile p = true) :
    ∃ q, d.canonical p = .ok q := by
  unfold isFile at h
  split at h
  next place bytes mode hf => exact ⟨_, canonical_eq_ok_iff.mpr ⟨_, _, hf, rfl⟩⟩
  next => simp at h

theorem isFile_of_lines {d : Disk} {p : Path} {lines : List Line}
    (h : d.lines p = .ok (lines, none)) : d.isFile p = true := by
  unfold Disk.lines at h
  unfold isFile
  split at h <;> simp_all

end BlockSync.Disk
