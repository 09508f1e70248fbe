import BlockSync.Proofs.Disk.Parents

/-! Where a commit lands. A path that a writer was committed to leads to what was written, if it still
leads anywhere: it may not if a directory on its way is only reached through the link that the
writer replaced. A link that bears the neighbour's name is put in the place of the path's own entry,
and what was written stands where it leads. -/

namespace BlockSync.Disk

open Text.Utf8 (Bytes)

variable {d d' : Disk} {p : Path} {links left : Nat} {dir here place : Place} {name : Text}
  {names : List Text} {bytes : Bytes} {mode : Mode} {e : Entry}

/-- What stood under the neighbour's name stands at the path's own place now, and the rest is as it
was. -/
structure Moved (d d' : Disk) (own temporary : Place) : Prop where
  cwd_eq : d'.cwd = d.cwd
  placed : d'.entry? own = d.entry? temporary
  gone : d'.entry? temporary = none
  kept : ∀ other, other ≠ own → other ≠ temporary → d'.entry? other = d.entry? other

/-- Names that come down to the place end there, or where links lead from there, at a file with
these bytes. -/
def Arrives (d : Disk) (own : Place) (bytes : Bytes) (links : Nat) : Prop :=
  ∀ {here name rest left place e}, Descends name → here ++ [name] = own →
    d.Passes links here (name :: rest) left place → d.entry? place = some e →
      (∀ target, e ≠ .link target) → rest = [] ∧ ∃ mode, e = .file bytes mode

theorem Step.links_le {links' : Nat} {here' : Place} {more : List Text}
    (h : d.Step links here name links' here' more) : links' ≤ links := by
  cases h with
  | stay | up | down => exact Nat.le_refl _
  | link => exact Nat.le_succ _

namespace Moved

variable {own temporary : Place} (h : Moved d d' own temporary)

include h

/-- A name does the same on both disks, unless it leads down to the place. -/
theorem step {links' left' : Nat} {here₁ here₂ : Place} {more₁ more₂ : List Text}
    (hs : d.Step links here name left here₁ more₁)
    (hs' : d'.Step links' here name left' here₂ more₂) :
    Descends name ∧ here ++ [name] = own ∨ here₁ = here₂ ∧ more₁ = more₂ := by
  have hsame : Descends name → here ++ [name] ≠ own →
      d'.entry? (here ++ [name]) = d.entry? (here ++ [name]) := by
    refine fun hn hown => h.kept _ hown fun htemporary => ?_
    have hgone := h.gone
    rw [← htemporary] at hgone
    cases hs' with
    | stay hn' => exact hn.ne_stay hn'
    | up => exact hn.ne_up rfl
    | down _ he | link _ he => simp [hgone] at he
  by_cases hown : Descends name ∧ here ++ [name] = own
  · exact .inl hown
  have hstep : d'.Step links here name left here₁ more₁ := by
    cases hs with
    | stay hn => exact .stay hn
    | up => exact .up
    | down hn he hl => exact .down hn ((hsame hn fun hp => hown ⟨hn, hp⟩).trans he) hl
    | link hn he => exact .link hn ((hsame hn fun hp => hown ⟨hn, hp⟩).trans he)
  exact .inr (hstep.unique hs')

/-- Where names led before they lead now, and go on from there, or they come down to the place on
the way. -/
theorem follow {m left' : Nat} {rest : List Text} {q : Place}
    (harrives : ∀ k ≤ links, d'.Arrives own bytes k) (hp : d.Passes m here names left place)
    (hp' : d'.Passes links here (names ++ rest) left' q) (he : d'.entry? q = some e)
    (hl : ∀ target, e ≠ .link target) :
    (rest = [] ∧ ∃ mode, e = .file bytes mode) ∨
      ∃ k ≤ links, d'.Passes k place rest left' q := by
  induction hp generalizing links with
  | done => exact .inr ⟨links, Nat.le_refl _, hp'⟩
  | @step _ here name names _ _ more _ _ hh hs hp ih =>
    cases hp' with
    | step hh' hs' hrest =>
      rcases h.step hs hs' with ⟨hn, hown⟩ | ⟨rfl, rfl⟩
      · have hend := harrives links (Nat.le_refl _) hn hown (.step hh' hs' hrest) he hl
        exact .inl ⟨(List.append_eq_nil_iff.mp hend.1).2, hend.2⟩
      · have hle := hs'.links_le
        refine (ih (fun k hk => harrives k (Nat.le_trans hk hle)) ?_).imp_right ?_
        · rw [List.append_assoc]
          exact hrest
        · rintro ⟨k, hk, hp'⟩
          exact ⟨k, Nat.le_trans hk hle, hp'⟩

end Moved

/-- If the neighbour's name led to a file with these bytes, then so does now the name whose place it
took. Names that come through a link there may come down to it again, with fewer links left. -/
theorem Moved.arrives {new : Text} (h : Moved d d' (dir ++ [name]) (dir ++ [new]))
    (hnew : Descends new) {m : Nat} (hopened : d.Passes m dir [new] left place)
    (hfile : d.entry? place = some (.file bytes mode)) (links : Nat) :
    d'.Arrives (dir ++ [name]) bytes links := by
  induction links using Nat.strongRecOn with
  | ind links ih =>
  intro here name' rest left' q e hn hown hp he hl
  obtain ⟨rfl, hname⟩ := List.append_inj' hown rfl
  obtain rfl := List.singleton_inj.mp hname
  cases hp with
  | step hh' hs' hp' =>
  cases hopened with
  | step hh hs hdone =>
  cases hs with
  | stay hn' => exact absurd hn' hnew.ne_stay
  | up => exact absurd rfl hnew.ne_up
  | down _ hentry hnolink =>
    -- a file has moved
    cases hdone
    have hplaced := h.placed.trans hfile
    cases hs' with
    | stay hn' => exact absurd hn' hn.ne_stay
    | up => exact absurd rfl hn.ne_up
    | link _ hlink => exact absurd (hlink.symm.trans hplaced) (by simp)
    | down =>
      cases rest with
      | nil =>
        cases hp'
        exact ⟨rfl, mode, Option.some.inj (he.symm.trans hplaced)⟩
      | cons => exact absurd (hp'.directory.symm.trans hplaced) (by simp)
  | @link _ _ _ target _ hentry =>
    -- a link has moved, which stands in the same directory as before
    have hplaced := h.placed.trans hentry
    have hend : d'.entry? place = some (.file bytes mode) ∨
        d'.entry? place = some (.link target) := by
      by_cases hown : place = here ++ [name']
      · exact .inr (hown ▸ hplaced)
      · refine .inl ((h.kept _ hown ?_).trans hfile)
        rintro rfl
        simp [hfile] at hentry
    cases hs' with
    | stay hn' => exact absurd hn' hn.ne_stay
    | up => exact absurd rfl hn.ne_up
    | down _ hentry' hnolink =>
      exact absurd (Option.some.inj (hentry'.symm.trans hplaced)) (hnolink _)
    | @link links _ _ _ _ hlink =>
      obtain rfl := Entry.link.inj (Option.some.inj (hlink.symm.trans hplaced))
      rw [List.append_nil] at hdone
      rcases h.follow (fun k hk => ih k (Nat.lt_succ_of_le hk)) hdone hp' he hl with
        hfound | ⟨k, -, hp⟩
      · exact hfound
      · cases rest with
        | nil =>
          cases hp
          rcases hend with hend | hend
          · exact ⟨rfl, mode, Option.some.inj (he.symm.trans hend)⟩
          · exact absurd (Option.some.inj (he.symm.trans hend)) (hl _)
        | cons => rcases hend with hend | hend <;> simp [hp.directory] at hend

/-- A walk ends at this place, and not because a directory is there. -/
def Lands (place : Place) (end_ : Except Cause Spot) : Prop :=
  end_ = .ok (.free place) ∨ ∃ e, e ≠ .directory ∧ end_ = .ok (.taken place e)

theorem lands_of_landing {w : Writer} (h : w.landing d = .ok place) :
    (w.destination.text = [] ∨ ∃ name, w.destination.fileName? = some name) ∧
      Lands place (d.spot false w.destination.text) := by
  unfold Writer.landing at h
  split at h
  next => simp at h
  next hname =>
    refine ⟨Classical.or_iff_not_imp_left.mpr fun hne =>
      Option.ne_none_iff_exists'.mp fun hnone => hname ⟨hne, hnone⟩, ?_⟩
    split at h
    next => simp at h
    next e hne hs =>
      obtain rfl := Except.ok.inj h
      exact .inr ⟨e, hne, hs⟩
    next other hs =>
      obtain rfl := Except.ok.inj h
      exact .inl hs
    next => simp at h

/-- The path leads to a file, or to a place where one can be made. -/
structure Opens (d : Disk) (path : Text) (place : Place) : Prop where
  ne : place ≠ []
  spot : ∃ spot, d.spot true path = .ok spot ∧ spot.place = place
  file : ∀ e, d.entry? place = some e → ∃ old mode, e = .file old mode
  find_set : ∀ bytes mode,
    (d.set place (.file bytes mode)).find path = .ok (place, .file bytes mode)

theorem Opens.beside {path : Text} (h : d.Opens path place) (hb : d.Beside p left dir)
    (bytes : Bytes) (mode : Mode) : (d.set place (.file bytes mode)).Beside p left dir := by
  refine ⟨hb.passes.set_file h.ne h.file, ?_, hb.nul⟩
  have hdir : dir ≠ place := by
    rintro rfl
    obtain ⟨old, mode, he⟩ := h.file _ hb.directory
    simp at he
  rw [entry?_set h.ne, if_neg hdir, hb.directory]

theorem opens_of_truncate {path : Text} (h : d.truncate path = .ok (place, d')) :
    d.Opens path place ∧ ∃ mode, d' = d.set place (.file [] mode) := by
  unfold truncate at h
  split at h
  next => simp at h
  next =>
    split at h
    next => simp at h
    next => simp at h
    next place old mode hs =>
      obtain ⟨rfl, rfl⟩ := Prod.mk.inj (Except.ok.inj h)
      obtain ⟨hpath, hz⟩ := spot_ok hs
      have hw := hs
      rw [spot_eq_walk hpath hz] at hw
      obtain ⟨left, hp, he⟩ := exists_passes hw
      have hne : place ≠ [] := by
        rintro rfl
        simp at he
      have hfile : ∀ e, d.entry? place = some e → ∃ old mode, e = .file old mode :=
        fun e he' => ⟨old, mode, Option.some.inj (he'.symm.trans he)⟩
      refine ⟨⟨hne, ⟨_, hs, rfl⟩, hfile, fun bytes mode => ?_⟩, _, rfl⟩
      exact find_of_passes hpath hz (hp.set_file hne hfile) (by rw [entry?_set hne, if_pos rfl])
        (by simp)
    next hs =>
      obtain ⟨rfl, rfl⟩ := Prod.mk.inj (Except.ok.inj h)
      have hfree := (find_set_of_free (e := .directory) hs (by simp)).1
      exact ⟨⟨ne_nil_of_free hfree, ⟨_, hs, rfl⟩, by simp [hfree],
        fun bytes mode => (find_set_of_free hs (by simp)).2.2⟩, _, rfl⟩
    next => simp at h

theorem opens_of_create {w : Writer} (h : Writer.create d p = (.ok w, d')) :
    ∃ d₀ place, Writer.withParent d p = (.ok (), d₀) ∧
      w = ⟨p, Writer.temporaryPath d₀.stamp p, place⟩ ∧
      d₀.Opens (Writer.temporaryPath d₀.stamp p) place ∧
        ∃ mode, d' = d₀.set place (.file [] mode) := by
  unfold Writer.create at h
  split at h
  next => simp at h
  next d₀ hparent =>
    dsimp only at h
    split at h
    next => simp at h
    next place d₁ htruncate =>
      obtain ⟨hopens, mode, rfl⟩ := opens_of_truncate htruncate
      obtain ⟨hw, rfl⟩ := Prod.mk.inj h
      obtain rfl := Except.ok.inj hw
      refine ⟨d₀, place, hparent, rfl, hopens, ?_⟩
      split
      next mode' _ => exact ⟨mode', set_set ..⟩
      next => exact ⟨mode, rfl⟩

/-- The link that bore the name of the path's neighbour stands at the path's own place. What it led
to holds the content, unless it led back to that place. -/
structure Displaced (d : Disk) (p : Path) (dir own : Place) (bytes : Bytes) (d' : Disk) : Prop where
  link : ∃ target, d.entry? (dir ++ [d.neighbour p]) = some (.link target) ∧
    d'.entry? own = some (.link target)
  stored : ∃ spot, d.spot true (Writer.temporaryPath d.stamp p) = .ok spot ∧
    (spot.place = own ∨ ∃ mode, d'.entry? spot.place = some (.file bytes mode))

/-- The content is at the path's own place, in a file or where a link there leads, and the path
leads to nothing else. -/
structure Written (d : Disk) (p : Path) (bytes : Bytes) (d' : Disk) : Prop where
  placed : ∃ left dir name, (Writer.withParent d p).2.Beside p left dir ∧ p.fileName? = some name ∧
    ((∃ mode, d'.entry? (dir ++ [name]) = some (.file bytes mode)) ∨
      Displaced (Writer.withParent d p).2 p dir (dir ++ [name]) bytes d')
  found : ∀ place e, d'.find p.text = .ok (place, e) → ∃ mode, e = .file bytes mode

/-- What a commit does to a disk on which the neighbour's path leads to a file. -/
theorem Beside.exists_moved (h : d.Beside p left dir)
    (hcommit : Writer.commit ⟨p, Writer.temporaryPath d.stamp p, place⟩ d = (.ok (), d')) :
    ∃ name, p.fileName? = some name ∧ '\x00' ∉ p.text ∧
      Moved d d' (dir ++ [name]) (dir ++ [d.neighbour p]) := by
  unfold Writer.commit at hcommit
  split at hcommit
  next own temporary x hland hs =>
    obtain ⟨-, rfl⟩ := Prod.mk.inj hcommit
    obtain ⟨hname, hlands⟩ := lands_of_landing hland
    have hown : ∃ spot, d.spot false p.text = .ok spot ∧ spot.place = own := by
      rcases hlands with hlands | ⟨e, -, hlands⟩
      · exact ⟨_, hlands, rfl⟩
      · exact ⟨_, hlands, rfl⟩
    obtain ⟨spot, hspot, rfl⟩ := hown
    obtain ⟨hne, hz⟩ := spot_ok hspot
    obtain ⟨name, hname⟩ := hname.resolve_left hne
    rw [h.spot_name hz (Extends.refl d) hname] at hspot
    rw [h.spot_temporaryPath (not_mem_neighbour d hz) (Extends.refl d)] at hs
    have hplace := place_of_walk h.directory
      (descends_of_plain (Path.text_of_fileName? hname).1) hspot
    have htemporary : temporary = dir ++ [d.neighbour p] :=
      place_of_walk h.directory (descends_of_plain (plain_neighbour d p)) hs
    have he := entry?_of_taken hs
    subst htemporary
    have hother : dir ++ [d.neighbour p] ≠ dir ++ [name] := by simpa using neighbour_ne hname
    refine ⟨name, hname, hz, rfl, ?_, ?_, fun other hown hgone => ?_⟩
    · rw [hplace, entry?_set (by simp), if_pos rfl, he]
    · rw [hplace, entry?_set (by simp), if_neg hother, entry?_remove (by simp), if_pos rfl]
    · rw [hplace, entry?_set (by simp), if_neg hown, entry?_remove (by simp), if_neg hgone]
  next => simp at hcommit
  next => simp at hcommit

theorem Beside.passes_neighbour (h : d.Beside p left dir) (hz : '\x00' ∉ p.text)
    (hopened : d.find (Writer.temporaryPath d.stamp p) = .ok (place, e)) :
    ∃ m, d.Passes left dir [d.neighbour p] m place ∧ d.entry? place = some e := by
  have hspot := spot_of_find hopened
  rw [h.spot_temporaryPath (not_mem_neighbour d hz) (Extends.refl d)] at hspot
  exact exists_passes hspot

/-- After a commit a path leads to what was written, or nowhere. -/
theorem Moved.find (hb : d.Beside p left dir) (hname : p.fileName? = some name)
    (h : Moved d d' (dir ++ [name]) (dir ++ [d.neighbour p])) (hz : '\x00' ∉ p.text)
    {opened : Place} (hopened : d.find (Writer.temporaryPath d.stamp p) = .ok (opened, .file bytes mode))
    (hfind : d'.find p.text = .ok (place, e)) : ∃ mode, e = .file bytes mode := by
  have hn := descends_of_plain (Path.text_of_fileName? hname).1
  obtain ⟨m, hnew, hfile⟩ := hb.passes_neighbour hz hopened
  have harrives := h.arrives (descends_of_plain (plain_neighbour d p)) hnew hfile
  obtain ⟨left', hp, he⟩ := exists_passes_of_find hfind
  obtain ⟨hplain, htext⟩ := Path.text_of_fileName? hname
  obtain ⟨hstart, hsplit⟩ := start_above d' p hplain.2.2.2
  have hcwd : d'.start p.above = d.start p.above := by rw [start, start, h.cwd_eq]
  rw [htext, hstart, hsplit, hcwd] at hp
  have hl := ne_link_of_find hfind
  rcases h.follow (fun k _ => harrives k) hb.passes hp he hl with hend | ⟨k, -, hp⟩
  · simp at hend
  · exact (harrives k hn rfl hp he hl).2

/-- What has moved is the file that was opened, or a link to it. -/
theorem Moved.placed_file_or_link (hb : d.Beside p left dir)
    (h : Moved d d' (dir ++ [name]) (dir ++ [d.neighbour p])) (hz : '\x00' ∉ p.text)
    {opened : Place} (hopened : d.find (Writer.temporaryPath d.stamp p) = .ok (opened, .file bytes mode)) :
    d'.entry? (dir ++ [name]) = some (.file bytes mode) ∨
      opened ≠ dir ++ [d.neighbour p] ∧
        (∃ target, d.entry? (dir ++ [d.neighbour p]) = some (.link target) ∧
          d'.entry? (dir ++ [name]) = some (.link target)) ∧
        (opened = dir ++ [name] ∨ d'.entry? opened = some (.file bytes mode)) := by
  have hn := descends_of_plain (plain_neighbour d p)
  obtain ⟨m, hnew, hfile⟩ := hb.passes_neighbour hz hopened
  rcases hnew.down_or_link hn with rfl | ⟨target, hentry⟩
  · exact .inl (h.placed.trans hfile)
  · have hother : opened ≠ dir ++ [d.neighbour p] := by
      rintro rfl
      exact absurd (hfile.symm.trans hentry) (by simp)
    exact .inr ⟨hother, ⟨target, hentry, h.placed.trans hentry⟩,
      Classical.or_iff_not_imp_left.mpr fun hown => (h.kept _ hown hother).trans hfile⟩

theorem written_of_create {w : Writer} {d₁ : Disk} (hcreate : Writer.create d p = (.ok w, d₁))
    (hcommit : w.commit (w.write d₁ bytes) = (.ok (), d')) : d.Written p bytes d' := by
  obtain ⟨d₀, opened, hparent, rfl, hopens, mode, rfl⟩ := opens_of_create hcreate
  obtain ⟨spot, hspot, rfl⟩ := hopens.spot
  have hhoused := hspot
  rw [temporaryPath_eq] at hhoused
  obtain ⟨left, dir, hb₀⟩ := housed_of_spot (plain_neighbour d₀ p).2.2.2 hhoused
  rw [write_set d₀ p _ hopens.ne] at hcommit
  have hb := hopens.beside hb₀ ([] ++ bytes) (d₀.modes.kept bytes mode)
  obtain ⟨name, hname, hz, hmoved⟩ := hb.exists_moved hcommit
  have hfound := hopens.find_set ([] ++ bytes) (d₀.modes.kept bytes mode)
  have hafter : (Writer.withParent d p).2 = d₀ := congrArg Prod.snd hparent
  refine ⟨⟨left, dir, name, hafter ▸ hb₀, hname, ?_⟩,
    fun _ _ hfind => hmoved.find hb hname hz hfound hfind⟩
  rw [hafter]
  rcases hmoved.placed_file_or_link hb hz hfound with
    hfile | ⟨hother, ⟨target, hentry, hlink⟩, hstored⟩
  · exact .inl ⟨_, hfile⟩
  · have hbefore : d₀.entry? (dir ++ [d₀.neighbour p]) = some (.link target) := by
      rw [← hentry, entry?_set hopens.ne]
      exact (if_neg hother.symm).symm
    exact .inr ⟨⟨target, hbefore, hlink⟩, spot, hspot, hstored.imp_right fun hfile => ⟨_, hfile⟩⟩

theorem written_of_replace (h : d.replace p bytes = (.ok (), d')) : d.Written p bytes d' := by
  unfold replace at h
  split at h
  next => simp at h
  next w d₁ hcreate => exact written_of_create hcreate h

end BlockSync.Disk
