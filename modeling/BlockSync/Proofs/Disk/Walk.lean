import BlockSync.Proofs.Disk.Canonical

/-! Following a path step by step. What a path meets on its way it meets as well on a disk that holds
more, and where its names lead does not depend on what comes after them. -/

namespace BlockSync.Disk

/-- What is on the first disk is on the second one too. -/
structure Extends (d d' : Disk) : Prop where
  cwd_eq : d'.cwd = d.cwd
  stamp_eq : d'.stamp = d.stamp
  modes_eq : d'.modes = d.modes
  kept : ∀ place e, d.entry? place = some e → d'.entry? place = some e

theorem Extends.refl (d : Disk) : Extends d d :=
  ⟨rfl, rfl, rfl, fun _ _ he => he⟩

theorem Extends.trans {d d₁ d' : Disk} (h : Extends d d₁) (h' : Extends d₁ d') : Extends d d' :=
  ⟨h'.cwd_eq.trans h.cwd_eq, h'.stamp_eq.trans h.stamp_eq, h'.modes_eq.trans h.modes_eq,
    fun place e he => h'.kept place e (h.kept place e he)⟩

/-- What one name does: the links that may still be followed, the place it leads to, and the names
that come before those that are left. -/
inductive Step (d : Disk) : Nat → Place → Text → Nat → Place → List Text → Prop
  | stay {links here name} (hn : name = [] ∨ name = ".") : Step d links here name links here []
  | up {links here} : Step d links here ".." links here.dropLast []
  | down {links here name e} (hn : Descends name) (he : d.entry? (here ++ [name]) = some e)
      (hl : ∀ target, e ≠ .link target) : Step d links here name links (here ++ [name]) []
  | link {links here name target} (hn : Descends name)
      (he : d.entry? (here ++ [name]) = some (.link target)) :
      Step d (links + 1) here name links (if target.head? = some '/' then [] else here)
        (target.splitOn '/')

/-- The names lead from one place to the other. -/
inductive Passes (d : Disk) : Nat → Place → List Text → Nat → Place → Prop
  | done {links here} : Passes d links here [] links here
  | step {links here name rest links' here' more left place}
      (hh : d.entry? here = some .directory) (hs : d.Step links here name links' here' more)
      (hp : Passes d links' here' (more ++ rest) left place) :
      Passes d links here (name :: rest) left place

/-- The names lead to the spot: to what is there, to a free place, or to a link that stands for the
last name if that is not followed. -/
inductive Ends (d : Disk) (last : Bool) (spot : Spot) : Nat → Place → List Text → Prop
  | done {links here e} (he : d.entry? here = some e) (hspot : spot = .taken here e) :
      Ends d last spot links here []
  | free {links here name} (hh : d.entry? here = some .directory) (hn : Descends name)
      (he : d.entry? (here ++ [name]) = none) (hfit : name.byteLength ≤ maxName)
      (hspot : spot = .free (here ++ [name])) :
      Ends d last spot links here [name]
  | stop {links here name target} (hh : d.entry? here = some .directory) (hn : Descends name)
      (he : d.entry? (here ++ [name]) = some (.link target)) (hlast : last = false)
      (hspot : spot = .taken (here ++ [name]) (.link target)) : Ends d last spot links here [name]
  | step {links here name rest links' here' more} (hh : d.entry? here = some .directory)
      (hs : d.Step links here name links' here' more)
      (hw : Ends d last spot links' here' (more ++ rest)) :
      Ends d last spot links here (name :: rest)

def Spot.place : Spot → Place
  | .taken place _ => place
  | .free place => place

variable {d d' : Disk} {last : Bool} {links left : Nat} {here place : Place} {name : Text}
  {names rest : List Text} {e : Entry}

theorem walk_of_entry (he : d.entry? here = some e) :
    d.walk last links here [] = .ok (.taken here e) := by
  obtain ⟨follow, hw⟩ := walk_cases d last links
  rw [hw, walkNames, he]

theorem entry?_of_walk (h : d.walk last links here [] = .ok (.taken place e)) :
    here = place ∧ d.entry? here = some e := by
  cases he : d.entry? here with
  | none =>
    obtain ⟨follow, hw⟩ := walk_cases d last links
    rw [hw, walkNames, he] at h
    simp at h
  | some other =>
    rw [walk_of_entry he] at h
    obtain ⟨rfl, rfl⟩ := Spot.taken.inj (Except.ok.inj h)
    exact ⟨rfl, rfl⟩

theorem directory_of_walk {spot : Spot} (h : d.walk last links here (name :: rest) = .ok spot) :
    d.entry? here = some .directory := by
  obtain ⟨follow, hw⟩ := walk_cases d last links
  rw [hw, walkNames] at h
  by_contra hdir
  rw [if_pos hdir] at h
  simp at h

theorem walk_step {links' : Nat} {here' : Place} {more : List Text}
    (hh : d.entry? here = some .directory) (hs : d.Step links here name links' here' more)
    (hr : links' ≠ links → rest ≠ [] ∨ last = true) :
    d.walk last links here (name :: rest) = d.walk last links' here' (more ++ rest) := by
  have hdir : ¬d.entry? here ≠ some .directory := by simpa using hh
  obtain ⟨follow, hw⟩ := walk_cases d last links
  cases hs with
  | stay hn => rw [hw, walkNames, if_neg hdir, if_pos hn, List.nil_append]
  | up => rw [hw, walkNames, if_neg hdir, if_neg (by decide), if_pos rfl, List.nil_append]
  | @down _ _ _ e hn he hl =>
    rw [hw, walkNames, if_neg hdir, if_neg hn.ne_stay, if_neg hn.ne_up, he]
    cases e with
    | link target => exact absurd rfl (hl target)
    | file => rfl
    | directory => rfl
  | link hn he =>
    have hlast : ¬(rest = [] ∧ (!last) = true) := by
      rcases hr (by simp) with hr | hr
      · exact fun h => hr h.1
      · simp [hr]
    rw [walk, walkNames, if_neg hdir, if_neg hn.ne_stay, if_neg hn.ne_up, he]
    exact if_neg hlast

/-- A name in a directory leads to the entry of that name, if no link is followed. -/
theorem walk_singleton (hh : d.entry? here = some .directory) (hn : Descends name)
    (hl : last = true → ∀ target, d.entry? (here ++ [name]) ≠ some (.link target))
    (hfit : d.entry? (here ++ [name]) = none → name.byteLength ≤ maxName) :
    d.walk last links here [name] =
      .ok ((d.entry? (here ++ [name])).elim (.free (here ++ [name])) (.taken (here ++ [name]))) := by
  obtain ⟨follow, hw⟩ := walk_cases d last links
  rw [hw, walkNames_last hn hh hl hfit]

theorem walk_entry (hh : d.entry? here = some .directory) (hn : Descends name)
    (he : d.entry? (here ++ [name]) = some e) :
    d.walk false links here [name] = .ok (.taken (here ++ [name]) e) := by
  rw [walk_singleton hh hn (by simp) (by simp [he]), he]
  rfl

theorem walk_free (hh : d.entry? here = some .directory) (hn : Descends name)
    (he : d.entry? (here ++ [name]) = none) (hfit : name.byteLength ≤ maxName) :
    d.walk last links here [name] = .ok (.free (here ++ [name])) := by
  rw [walk_singleton hh hn (by simp [he]) fun _ => hfit, he]
  rfl

/-- A name that is not there may be too long. -/
theorem walk_long (hh : d.entry? here = some .directory) (hn : Descends name)
    (he : d.entry? (here ++ [name]) = none) (hlong : maxName < name.byteLength) :
    d.walk last links here (name :: rest) = .error .nameTooLong := by
  obtain ⟨follow, hw⟩ := walk_cases d last links
  rw [hw, walkNames, if_neg (by simpa using hh), if_neg hn.ne_stay, if_neg hn.ne_up, he]
  exact if_pos hlong

theorem free_or_long (hh : d.entry? here = some .directory) (hn : Descends name)
    (he : d.entry? (here ++ [name]) = none) :
    d.walk last links here [name] = .ok (.free (here ++ [name])) ∨
      d.walk last links here [name] = .error .nameTooLong := by
  by_cases hlong : maxName < name.byteLength
  · exact .inr (walk_long hh hn he hlong)
  · exact .inl (walk_free hh hn he (Nat.not_lt.mp hlong))

/-- A name in a directory leads to no other place, if no link is followed. -/
theorem place_of_walk {spot : Spot} (hh : d.entry? here = some .directory) (hn : Descends name)
    (h : d.walk false links here [name] = .ok spot) : spot.place = here ++ [name] := by
  cases he : d.entry? (here ++ [name]) with
  | some e =>
    rw [walk_entry hh hn he] at h
    exact congrArg Spot.place (Except.ok.inj h).symm
  | none =>
    rcases free_or_long hh hn he with hw | hw
    · exact congrArg Spot.place (Except.ok.inj (hw.symm.trans h)).symm
    · exact absurd (hw.symm.trans h) (by simp)

theorem ends_of_walk {spot : Spot} (h : d.walk last links here names = .ok spot) :
    d.Ends last spot links here names := by
  induction links using Nat.strongRecOn generalizing here names with
  | ind links follows =>
  induction names generalizing here with
  | nil =>
    obtain ⟨follow, hw⟩ := walk_cases d last links
    rw [hw, walkNames] at h
    cases he : d.entry? here with
    | none => simp [he] at h
    | some e =>
      rw [he] at h
      exact .done he (Except.ok.inj h).symm
  | cons name rest ih =>
    have hh := directory_of_walk h
    have hdir : ¬d.entry? here ≠ some .directory := by simpa using hh
    have steps : ∀ {here'}, d.Step links here name links here' [] →
        d.Ends last spot links here (name :: rest) :=
      fun hs => .step hh hs (ih ((walk_step hh hs fun hne => absurd rfl hne).symm.trans h))
    by_cases hstay : name = [] ∨ name = "."
    · exact steps (.stay hstay)
    by_cases hup : name = ".."
    · subst hup
      exact steps .up
    have hn : Descends name := ⟨hstay, hup⟩
    cases he : d.entry? (here ++ [name]) with
    | none =>
      by_cases hlong : maxName < name.byteLength
      · rw [walk_long hh hn he hlong] at h
        simp at h
      have hfit := Nat.not_lt.mp hlong
      by_cases hrest : rest = []
      · subst hrest
        rw [walk_free hh hn he hfit] at h
        exact .free hh hn he hfit (Except.ok.inj h).symm
      · obtain ⟨follow, hw⟩ := walk_cases d last links
        rw [hw, walkNames, if_neg hdir, if_neg hstay, if_neg hup, he] at h
        dsimp only at h
        rw [if_neg hlong, if_neg hrest] at h
        simp at h
    | some e =>
      cases e with
      | file => exact steps (.down hn he (by simp))
      | directory => exact steps (.down hn he (by simp))
      | link target =>
        by_cases hstop : rest = [] ∧ last = false
        · obtain ⟨rfl, rfl⟩ := hstop
          rw [walk_entry hh hn he] at h
          exact .stop hh hn he rfl (Except.ok.inj h).symm
        cases links with
        | zero =>
          have hlast : ¬(rest = [] ∧ (!last) = true) := by simpa using hstop
          rw [walk, walkNames, if_neg hdir, if_neg hstay, if_neg hup, he] at h
          dsimp only at h
          rw [if_neg hlast] at h
          simp at h
        | succ links =>
          have hr : rest ≠ [] ∨ last = true := by
            by_cases hrest : rest = []
            · exact .inr (by simpa [hrest] using hstop)
            · exact .inl hrest
          have hs : d.Step (links + 1) here name links _ _ := .link hn he
          exact .step hh hs
            (follows links links.lt_succ_self ((walk_step hh hs fun _ => hr).symm.trans h))

theorem Step.extends {links' : Nat} {here' : Place} {more : List Text} (hx : Extends d d')
    (h : d.Step links here name links' here' more) : d'.Step links here name links' here' more := by
  cases h with
  | stay hn => exact .stay hn
  | up => exact .up
  | down hn he hl => exact .down hn (hx.kept _ _ he) hl
  | link hn he => exact .link hn (hx.kept _ _ he)

theorem Passes.extends (hx : Extends d d') (h : d.Passes links here names left place) :
    d'.Passes links here names left place := by
  induction h with
  | done => exact .done
  | step hh hs _ ih => exact .step (hx.kept _ _ hh) (hs.extends hx) ih

/-- A walk goes on from where its first names lead. -/
theorem Passes.walk_append (h : d.Passes links here names left place)
    (hr : rest ≠ [] ∨ last = true) :
    d.walk last links here (names ++ rest) = d.walk last left place rest := by
  induction h with
  | done => rfl
  | @step links here name names links' here' more left place hh hs hp ih =>
    have hrest : names ++ rest ≠ [] ∨ last = true :=
      hr.imp_left fun hr he => hr (List.append_eq_nil_iff.mp he).2
    rw [List.cons_append, walk_step hh hs fun _ => hrest, ← List.append_assoc, ih]

theorem exists_passes (h : d.walk true links here names = .ok (.taken place e)) :
    ∃ left, d.Passes links here names left place ∧ d.entry? place = some e := by
  generalize hspot : Spot.taken place e = spot at h
  have hends := ends_of_walk h
  clear h
  induction hends with
  | done he hs =>
    obtain ⟨rfl, rfl⟩ := Spot.taken.inj (hspot.trans hs)
    exact ⟨_, .done, he⟩
  | free _ _ _ _ hs => simp [hs] at hspot
  | stop _ _ _ hlast => simp at hlast
  | step hh hs hw ih =>
    obtain ⟨left, hp, he⟩ := ih
    exact ⟨left, .step hh hs hp, he⟩

/-- What stands before the last name leads to a directory if the walk gets somewhere. -/
theorem exists_passes_init {spot : Spot}
    (h : d.walk last links here (names ++ [name]) = .ok spot) :
    ∃ left dir, d.Passes links here names left dir ∧ d.entry? dir = some .directory := by
  have hends := ends_of_walk h
  clear h
  generalize hall : names ++ [name] = all at hends
  induction hends generalizing names with
  | done => simp at hall
  | free hh | stop hh =>
    cases names with
    | nil => exact ⟨_, _, .done, hh⟩
    | cons => simp at hall
  | @step _ _ first _ _ _ more hh hs hw ih =>
    cases names with
    | nil => exact ⟨_, _, .done, hh⟩
    | cons other names =>
      rw [List.cons_append, List.cons.injEq] at hall
      obtain ⟨rfl, rfl⟩ := hall
      obtain ⟨left, dir, hp, hdir⟩ := ih (List.append_assoc more names [name])
      exact ⟨left, dir, .step hh hs hp, hdir⟩

/-- Names that lead somewhere lead through what their first part leads to. -/
theorem Passes.split (h : d.Passes links here (names ++ rest) left place) :
    ∃ between dir, d.Passes links here names between dir ∧ d.Passes between dir rest left place := by
  generalize hall : names ++ rest = all at h
  induction h generalizing names with
  | done =>
    obtain ⟨rfl, rfl⟩ := List.append_eq_nil_iff.mp hall
    exact ⟨_, _, .done, .done⟩
  | @step _ _ name _ _ _ more _ _ hh hs hp ih =>
    cases names with
    | nil =>
      subst hall
      exact ⟨_, _, .done, .step hh hs hp⟩
    | cons first names =>
      rw [List.cons_append, List.cons.injEq] at hall
      obtain ⟨rfl, rfl⟩ := hall
      obtain ⟨between, dir, hfirst, hrest⟩ := ih (List.append_assoc more names rest)
      exact ⟨between, dir, .step hh hs hfirst, hrest⟩

theorem Step.unique {links' left' : Nat} {here₁ here₂ : Place} {more₁ more₂ : List Text}
    (h₁ : d.Step links here name left here₁ more₁) (h₂ : d.Step links' here name left' here₂ more₂) :
    here₁ = here₂ ∧ more₁ = more₂ := by
  cases h₁ with
  | stay hn =>
    cases h₂ with
    | stay => exact ⟨rfl, rfl⟩
    | up => simp at hn
    | down hn' | link hn' => exact absurd hn hn'.ne_stay
  | up =>
    cases h₂ with
    | stay hn => simp at hn
    | up => exact ⟨rfl, rfl⟩
    | down hn' | link hn' => exact absurd rfl hn'.ne_up
  | down hn he hl =>
    cases h₂ with
    | stay hn' => exact absurd hn' hn.ne_stay
    | up => exact absurd rfl hn.ne_up
    | down => exact ⟨rfl, rfl⟩
    | link _ he' => exact absurd (Option.some.inj (he.symm.trans he')) (hl _)
  | link hn he =>
    cases h₂ with
    | stay hn' => exact absurd hn' hn.ne_stay
    | up => exact absurd rfl hn.ne_up
    | down _ he' hl => exact absurd (Option.some.inj (he'.symm.trans he)) (hl _)
    | link _ he' =>
      obtain rfl := Entry.link.inj (Option.some.inj (he.symm.trans he'))
      exact ⟨rfl, rfl⟩

/-- Where names lead does not depend on how many links may be followed. -/
theorem Passes.unique {links' left' : Nat} {place' : Place}
    (h : d.Passes links here names left place) (h' : d.Passes links' here names left' place') :
    place = place' := by
  induction h generalizing links' left' place' with
  | done =>
    cases h'
    rfl
  | step hh hs hp ih =>
    cases h' with
    | step hh' hs' hp' =>
      obtain ⟨rfl, rfl⟩ := hs.unique hs'
      exact ih hp'

theorem Passes.directory (h : d.Passes links here (name :: rest) left place) :
    d.entry? here = some .directory := by
  cases h with
  | step hh => exact hh

theorem Passes.directory_start (h : d.Passes links here names left place)
    (he : d.entry? place = some .directory) : d.entry? here = some .directory := by
  cases h with
  | done => exact he
  | step hh => exact hh

theorem Passes.down_or_link (hn : Descends name) (h : d.Passes links here [name] left place) :
    place = here ++ [name] ∨ ∃ target, d.entry? (here ++ [name]) = some (.link target) := by
  cases h with
  | step _ hs hdone =>
    cases hs with
    | stay hn' => exact absurd hn' hn.ne_stay
    | up => exact absurd rfl hn.ne_up
    | down =>
      cases hdone
      exact .inl rfl
    | link _ he => exact .inr ⟨_, he⟩

/-- What is found through all links is there without following the last one. -/
theorem exists_walk_false (h : d.walk true links here names = .ok (.taken place e)) :
    ∃ place e, d.walk false links here names = .ok (.taken place e) := by
  rcases List.eq_nil_or_concat names with rfl | ⟨init, name, rfl⟩
  · obtain ⟨rfl, he⟩ := entry?_of_walk h
    exact ⟨here, e, walk_of_entry he⟩
  · rw [List.concat_eq_append] at h ⊢
    obtain ⟨left, hp, he⟩ := exists_passes h
    obtain ⟨between, dir, hfirst, hlast⟩ := hp.split
    rw [hfirst.walk_append (.inl (by simp))]
    cases hlast with
    | step hh hs hdone =>
      cases hs with
      | link hn he => exact ⟨_, _, walk_entry hh hn he⟩
      | stay hn =>
        cases hdone
        exact ⟨place, e, by rw [walk_step hh (.stay hn) (by simp), List.append_nil, walk_of_entry he]⟩
      | up =>
        cases hdone
        exact ⟨_, e, by rw [walk_step hh .up (by simp), List.append_nil, walk_of_entry he]⟩
      | down hn hentry hl =>
        cases hdone
        refine ⟨dir ++ [name], e, ?_⟩
        rw [walk_step hh (.down hn hentry hl) (by simp), List.append_nil, walk_of_entry he]

/-- Where the names of a path start. -/
def start (d : Disk) (path : Text) : Place :=
  if path.head? = some '/' then [] else d.cwd

theorem spot_eq_walk {path : Text} (hne : path ≠ []) (hz : '\x00' ∉ path) :
    d.spot last path = d.walk last maxLinks (d.start path) (path.splitOn '/') := by
  rw [spot, if_neg hne, if_neg hz]
  rfl

theorem spot_ok {path : Text} {spot : Spot} (h : d.spot last path = .ok spot) :
    path ≠ [] ∧ '\x00' ∉ path := by
  unfold Disk.spot at h
  split at h
  next => simp at h
  next hne =>
    split at h
    next => simp at h
    next hz => exact ⟨hne, hz⟩

theorem exists_passes_of_find {path : Text} (h : d.find path = .ok (place, e)) :
    ∃ left, d.Passes maxLinks (d.start path) (path.splitOn '/') left place ∧
      d.entry? place = some e := by
  have hs := spot_of_find h
  obtain ⟨hne, hz⟩ := spot_ok hs
  rw [spot_eq_walk hne hz] at hs
  exact exists_passes hs

theorem find_of_passes {path : Text} (hne : path ≠ []) (hz : '\x00' ∉ path)
    (hp : d.Passes maxLinks (d.start path) (path.splitOn '/') left place)
    (he : d.entry? place = some e) (hl : ∀ target, e ≠ .link target) :
    d.find path = .ok (place, e) := by
  have hw : d.walk true maxLinks (d.start path) (path.splitOn '/' ++ []) =
      d.walk true left place [] := hp.walk_append (.inr rfl)
  rw [List.append_nil, walk_of_entry he] at hw
  rw [find, spot_eq_walk hne hz, hw]
  cases e with
  | link target => exact absurd rfl (hl target)
  | file | directory => rfl

theorem find_extends (hx : Extends d d') {path : Text} (h : d.find path = .ok (place, e)) :
    d'.find path = .ok (place, e) := by
  obtain ⟨hne, hz⟩ := spot_ok (spot_of_find h)
  obtain ⟨left, hp, he⟩ := exists_passes_of_find h
  have hstart : d'.start path = d.start path := by rw [start, start, hx.cwd_eq]
  exact find_of_passes hne hz (hstart ▸ hp.extends hx) (hx.kept _ _ he) (ne_link_of_find h)

theorem spot_false_of_find {path : Text} (h : d.find path = .ok (place, e)) :
    ∃ place e, d.spot false path = .ok (.taken place e) := by
  have hs := spot_of_find h
  obtain ⟨hne, hz⟩ := spot_ok hs
  rw [spot_eq_walk hne hz] at hs ⊢
  exact exists_walk_false hs

end BlockSync.Disk
