import BlockSync.Proofs.Disk.Walk
import BlockSync.Proofs.Disk.Writer

/-! Following names where one entry is another, or none any more. Names that lead to a directory pass
through no file, so a new file is only met at their end, and what leads to no directory may go. -/

namespace BlockSync.Disk

variable {d d' : Disk} {last : Bool} {links left : Nat} {here dir place : Place} {name : Text}
  {names : List Text} {e : Entry}

theorem ne_nil_of_free (h : d.entry? place = none) : place ≠ [] := by
  rintro rfl
  simp at h

theorem extends_set (hfree : d.entry? place = none) (e : Entry) : Extends d (d.set place e) := by
  refine ⟨rfl, rfl, rfl, fun other e' he => ?_⟩
  have hother : other ≠ place := by
    rintro rfl
    simp [hfree] at he
  rw [entry?_set (ne_nil_of_free hfree), if_neg hother, he]

theorem extends_remove (hne : place ≠ []) : Extends (d.remove place) d := by
  refine ⟨rfl, rfl, rfl, fun other e he => ?_⟩
  rw [entry?_remove hne] at he
  split at he
  next => simp at he
  next => exact he

theorem set_remove (d : Disk) (place : Place) (e : Entry) :
    (d.remove place).set place e = d.set place e := by
  refine ext_entries (fun other => ?_) rfl rfl rfl
  simp only [set, remove, SortedMap.find?_insert, SortedMap.find?_erase]
  split <;> rfl

theorem Rooted.set (hd : d.Rooted) (hdir : d.entry? place.dropLast = some .directory)
    (hfree : d.entry? place = none) (e : Entry) : (d.set place e).Rooted := by
  rintro ⟨other, e'⟩ hm
  refine (extends_set hfree e).kept _ _ ?_
  have hfind : (d.entries.insert place e).find? other = some e' := SortedMap.mem_entries_iff.mp hm
  rw [SortedMap.find?_insert] at hfind
  split at hfind
  next ho => exact ho ▸ hdir
  next => exact hd _ (SortedMap.mem_entries_iff.mpr hfind)

/-- Nothing is below a place where nothing is. -/
theorem Rooted.entry?_concat (hd : d.Rooted) (hfree : d.entry? place = none) (name : Text) :
    d.entry? (place ++ [name]) = none := by
  by_contra hne
  obtain ⟨e, he⟩ := Option.ne_none_iff_exists'.mp hne
  have hdir := hd.entry?_dropLast he
  rw [List.dropLast_concat, hfree] at hdir
  simp at hdir

/-- Names lead to something that is there. -/
theorem Rooted.exists_entry (hd : d.Rooted) (h : d.Passes links here (name :: names) left place) :
    ∃ e, d.entry? place = some e := by
  have hstart : ∃ e, d.entry? here = some e := ⟨_, h.directory⟩
  generalize name :: names = all at h
  induction h with
  | done => exact hstart
  | step hh hs _ ih =>
    refine ih ?_
    cases hs with
    | stay => exact hstart
    | up => exact ⟨_, hd.entry?_dropLast hh⟩
    | down _ he => exact ⟨_, he⟩
    | link =>
      split
      · exact ⟨_, entry?_nil d⟩
      · exact hstart

/-- Names that lead to a directory do so still if an entry is gone that leads to none. -/
theorem Passes.remove (hdir : d.entry? dir = some .directory) (hn : Descends name)
    (hno : ∀ links left place, d.Passes links dir [name] left place →
      d.entry? place ≠ some .directory) (h : d.Passes links here names left place)
    (hplace : d.entry? place = some .directory) :
    (d.remove (dir ++ [name])).Passes links here names left place := by
  have hown : d.entry? (dir ++ [name]) ≠ some .directory :=
    fun he => hno 0 0 _ (.step hdir (.down hn he (by simp)) .done) he
  have hkept : ∀ other, other ≠ dir ++ [name] →
      entry? (d.remove (dir ++ [name])) other = d.entry? other :=
    fun other hne => by rw [entry?_remove (by simp), if_neg hne]
  induction h with
  | done => exact .done
  | @step links here name' rest links' here' more left place hh hs hp ih =>
    have hhere : here ≠ dir ++ [name] := by
      rintro rfl
      exact hown hh
    refine .step ((hkept _ hhere).trans hh) ?_ (ih hplace)
    cases hs with
    | stay hn => exact .stay hn
    | up => exact .up
    | down hn' he hl =>
      have hnext : here ++ [name'] ≠ dir ++ [name] := by
        intro hnext
        rw [hnext] at hp
        exact hown (hp.directory_start hplace)
      exact .down hn' ((hkept _ hnext).trans he) hl
    | link hn' he =>
      -- the link at the entry leads on to a directory here, but nowhere from the entry itself
      have hnext : here ++ [name'] ≠ dir ++ [name] := by
        intro hnext
        obtain ⟨rfl, hname⟩ := List.append_inj' hnext rfl
        obtain rfl := List.singleton_inj.mp hname
        obtain ⟨between, other, hfirst, hlast⟩ := hp.split
        have hlink : d.Passes _ here [name'] between other :=
          .step hh (.link hn' he) (by rw [List.append_nil]; exact hfirst)
        exact hno _ _ _ hlink (hlast.directory_start hplace)
      exact .link hn' ((hkept _ hnext).trans he)

/-- A name in a directory leads to no directory if it is neither that of one nor that of a link. -/
theorem Passes.not_directory (hn : Descends name)
    (hown : d.entry? (dir ++ [name]) ≠ some .directory)
    (hl : ∀ target, d.entry? (dir ++ [name]) ≠ some (.link target))
    (h : d.Passes links dir [name] left place) : d.entry? place ≠ some .directory := by
  rcases h.down_or_link hn with rfl | ⟨target, he⟩
  · exact hown
  · exact absurd he (hl target)

/-- Where names led they lead still if a file is made or gets new content. -/
theorem Passes.set_file {bytes : Text.Utf8.Bytes} {mode : Mode} {new : Place} (hne : new ≠ [])
    (hfile : ∀ e, d.entry? new = some e → ∃ old mode, e = .file old mode)
    (h : d.Passes links here names left place) :
    (d.set new (.file bytes mode)).Passes links here names left place := by
  have hkept : ∀ other e, d.entry? other = some e → (∀ old mode, e ≠ .file old mode) →
      entry? (d.set new (.file bytes mode)) other = some e := by
    intro other e he hno
    have hother : other ≠ new := by
      rintro rfl
      obtain ⟨old, mode, rfl⟩ := hfile e he
      exact hno old mode rfl
    rw [entry?_set hne, if_neg hother, he]
  induction h with
  | done => exact .done
  | @step _ here name _ _ _ _ _ _ hh hs _ ih =>
    refine .step (hkept _ _ hh (by simp)) ?_ ih
    cases hs with
    | stay hn => exact .stay hn
    | up => exact .up
    | link hn he => exact .link hn (hkept _ _ he (by simp))
    | @down _ _ _ e hn he hl =>
      by_cases hnext : here ++ [name] = new
      · have hnew : entry? (d.set new (.file bytes mode)) (here ++ [name]) =
            some (.file bytes mode) := by
          rw [entry?_set hne, if_pos hnext]
        exact .down hn hnew (by simp)
      · have hsame : entry? (d.set new (.file bytes mode)) (here ++ [name]) = some e := by
          rw [entry?_set hne, if_neg hnext, he]
        exact .down hn hsame hl

/-- What names pass where a file is new they passed before, unless they end at the file. Then they led
to its free place, if its name can be made there. -/
theorem Passes.of_set {bytes : Text.Utf8.Bytes} {mode : Mode} {new : Text}
    (hfree : d.entry? (dir ++ [new]) = none)
    (h : (d.set (dir ++ [new]) (.file bytes mode)).Passes links here names left place) :
    d.Passes links here names left place ∨ place = dir ++ [new] ∧
      (new.byteLength ≤ maxName → d.walk true links here names = .ok (.free (dir ++ [new]))) := by
  have hentry := fun other => entry?_set (d := d) (ne_nil_of_free hfree) (.file bytes mode) other
  have hkept : ∀ other e, entry? (d.set (dir ++ [new]) (.file bytes mode)) other = some e →
      e ≠ .file bytes mode → d.entry? other = some e := by
    intro other e he hne
    have hother : other ≠ dir ++ [new] := by
      rintro rfl
      rw [hentry, if_pos rfl] at he
      exact hne (Option.some.inj he).symm
    rwa [hentry, if_neg hother] at he
  induction h with
  | done => exact .inl .done
  | @step links here name rest links' here' more left place hh hs hp ih =>
    have hdir := hkept _ _ hh (by simp)
    have steps : d.Step links here name links' here' more →
        d.Passes links here (name :: rest) left place ∨ place = dir ++ [new] ∧
          (new.byteLength ≤ maxName →
            d.walk true links here (name :: rest) = .ok (.free (dir ++ [new]))) :=
      fun hs => ih.imp (.step hdir hs ·) fun hend => ⟨hend.1, fun hfit => by
        rw [walk_step hdir hs fun _ => .inr rfl, hend.2 hfit]⟩
    cases hs with
    | stay hn => exact steps (.stay hn)
    | up => exact steps .up
    | link hn he => exact steps (.link hn (hkept _ _ he (by simp)))
    | @down _ _ _ e hn he hl =>
      by_cases hnext : here ++ [name] = dir ++ [new]
      · obtain ⟨rfl, hname⟩ := List.append_inj' hnext rfl
        obtain rfl := List.singleton_inj.mp hname
        cases rest with
        | nil =>
          cases hp
          exact .inr ⟨rfl, walk_free hdir hn hfree⟩
        | cons =>
          have hfile := hp.directory
          rw [hentry, if_pos rfl] at hfile
          simp at hfile
      · rw [hentry, if_neg hnext] at he
        exact steps (.down hn he hl)

/-- Names that led to a free place lead to what is put there. -/
theorem exists_passes_set (h : d.walk last links here names = .ok (.free place))
    (hl : ∀ target, e ≠ .link target) :
    d.entry? place = none ∧ d.entry? place.dropLast = some .directory ∧
      ∃ left, (d.set place e).Passes links here names left place := by
  generalize hspot : Spot.free place = spot at h
  have hends := ends_of_walk h
  clear h
  induction hends with
  | done _ hs | stop _ _ _ _ hs => simp [hs] at hspot
  | @free links here name hh hn he hfit hs =>
    obtain rfl := Spot.free.inj (hspot.trans hs)
    have hx := extends_set he e
    have hnew : entry? (d.set (here ++ [name]) e) (here ++ [name]) = some e := by
      rw [entry?_set (by simp), if_pos rfl]
    exact ⟨he, by simpa using hh, links, .step (hx.kept _ _ hh) (.down hn hnew hl) .done⟩
  | step hh hs _ ih =>
    obtain ⟨hfree, hdir, left, hp⟩ := ih
    have hx := extends_set hfree e
    exact ⟨hfree, hdir, left, .step (hx.kept _ _ hh) (hs.extends hx) hp⟩

/-- What is put where a path leads to a free place is what the path leads to. -/
theorem find_set_of_free {path : Text} (h : d.spot last path = .ok (.free place))
    (hl : ∀ target, e ≠ .link target) : d.entry? place = none ∧
      d.entry? place.dropLast = some .directory ∧ (d.set place e).find path = .ok (place, e) := by
  obtain ⟨hne, hz⟩ := spot_ok h
  rw [spot_eq_walk hne hz] at h
  obtain ⟨hfree, hdir, left, hp⟩ := exists_passes_set h hl
  refine ⟨hfree, hdir, find_of_passes hne hz hp ?_ hl⟩
  rw [entry?_set (ne_nil_of_free hfree), if_pos rfl]

/-- A path leads where it led before a file was made, or to that file. -/
theorem find_of_set {bytes : Text.Utf8.Bytes} {mode : Mode} {new : Text}
    (hfree : d.entry? (dir ++ [new]) = none) {path : Text}
    (h : (d.set (dir ++ [new]) (.file bytes mode)).find path = .ok (place, e)) :
    d.find path = .ok (place, e) ∨ place = dir ++ [new] ∧ e = .file bytes mode := by
  obtain ⟨hne, hz⟩ := spot_ok (spot_of_find h)
  obtain ⟨left, hp, he⟩ := exists_passes_of_find h
  rw [entry?_set (ne_nil_of_free hfree)] at he
  split at he
  next hplace => exact .inr ⟨hplace, (Option.some.inj he).symm⟩
  next hplace =>
    rcases hp.of_set hfree with hp | ⟨hnew, -⟩
    · exact .inl (find_of_passes hne hz hp he (ne_link_of_find h))
    · exact absurd hnew hplace

/-- A path leads to a file that was made only if it led to the free place where that is. -/
theorem Rooted.spot_of_find_set (hd : d.Rooted) {bytes : Text.Utf8.Bytes} {mode : Mode} {new : Text}
    (hfree : d.entry? (dir ++ [new]) = none) (hfit : new.byteLength ≤ maxName) {path : Text}
    (h : (d.set (dir ++ [new]) (.file bytes mode)).find path = .ok (dir ++ [new], e)) :
    d.spot true path = .ok (.free (dir ++ [new])) := by
  obtain ⟨hne, hz⟩ := spot_ok (spot_of_find h)
  obtain ⟨left, hp, -⟩ := exists_passes_of_find h
  rw [spot_eq_walk hne hz]
  rcases hp.of_set hfree with hp | ⟨-, hw⟩
  · cases hnames : path.splitOn '/' with
    | nil => exact absurd hnames (List.splitOn_ne_nil _ _)
    | cons name names =>
      obtain ⟨e, he⟩ := hd.exists_entry (hnames ▸ hp)
      simp [hfree] at he
  · exact hw hfit

end BlockSync.Disk
