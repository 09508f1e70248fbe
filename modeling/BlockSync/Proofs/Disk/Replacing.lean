import BlockSync.Proofs.Disk.Landing

/-! Replacing a file in one step or not at all. Until the writer commits only its temporary neighbour is
new, and afterwards the neighbour is gone: either the path's own entry is the new file, or the disk is
as it was. Only directories that were made above the path stay. -/

namespace BlockSync.Disk

open BlockSync.Path (HeldBy)
open Relation (TransGen)
open Text.Utf8 (Bytes)

/-- The path leads to the same on both disks, if anywhere. -/
def SameAt (p : Path) (d d' : Disk) : Prop :=
  ∀ place e, d'.find p.text = .ok (place, e) ↔ d.find p.text = .ok (place, e)

/-- At most directories above the path were made that were missing. -/
structure Prepared (d : Disk) (p : Path) (d' : Disk) : Prop where
  grown : d' = d ∨ ∃ q place, TransGen HeldBy p q ∧ d'.find q.text = .ok (place, .directory) ∧
    Grown d d' place
  same : SameAt p d d'
  vacant : d'.Vacant p

/-- The path cannot be replaced: it ends in no name, or its own entry is a directory. -/
def Fixed (d : Disk) (p : Path) : Prop :=
  p.fileName? = none ∨ ∃ place, d.spot false p.text = .ok (.taken place .directory)

/-- Only the path's own entry is another. It is a file with these bytes, and the path leads to it
unless the way there led through the entry that is gone. The mode is that of what the path led to,
but for the two bits that do not outlast writing. -/
structure Landed (d : Disk) (p : Path) (bytes : Bytes) (own : Place) (mode : Mode) (d' : Disk) :
    Prop where
  lands : Lands own (d.spot false p.text)
  eq_set : d' = d.set own (.file bytes mode)
  find_iff : ∀ place e, d'.find p.text = .ok (place, e) ↔ (d.remove own).Housed p ∧
    place = own ∧ e = .file bytes mode
  housed : (∀ target, d.entry? own ≠ some (.link target)) ∨ d.isFile p = true →
    (d.remove own).Housed p
  rights : ∀ old, Writer.mode? d p = some old → mode &&& 0o1777#12 = old &&& 0o1777#12
  mode_eq : ∀ old, Writer.mode? d p = some old →
    d.modes.lasting = true ∨ bytes = [] ∨ old &&& 0o6000#12 = 0 → mode = old

/-- The mode of a file with these bytes that takes the place of what the path leads to. -/
def modeOf (d : Disk) (p : Path) (bytes : Bytes) : Mode :=
  d.modes.kept bytes ((Writer.mode? d p).getD d.modes.file)

/-- A writer to the path was given these bytes. The path leads where it led, unless it is a link to the
free place that the temporary neighbour took. -/
structure Pending (d : Disk) (p : Path) (w : Writer) (bytes : Bytes) (d' : Disk) : Prop where
  beside : ∃ left dir, d.Beside p left dir ∧ w.opened = dir ++ [d.neighbour p]
  free : d.entry? w.opened = none
  same : d.spot true p.text ≠ .ok (.free w.opened) → SameAt p d d'
  shown : d.spot true p.text = .ok (.free w.opened) →
    ∃ mode, d'.find p.text = .ok (w.opened, .file bytes mode)
  dropped : w.drop d' = d
  refused : d.Fixed p → ∃ cause, w.commit d' = (.error ⟨p.text, cause⟩, d)
  committed : ¬d.Fixed p → ∃ own mode d'', w.commit d' = (.ok (), d'') ∧
    d.Landed p bytes own mode d'' ∧ d''.entry? w.opened = none

variable {d d₀ : Disk} {p : Path} {left : Nat} {dir : Place} {name : Text}

theorem sameAt_set (hd : d.Rooted) {new : Text} (hfree : d.entry? (dir ++ [new]) = none)
    (hfit : new.byteLength ≤ maxName) (bytes : Bytes) (mode : Mode)
    (hno : d.spot true p.text ≠ .ok (.free (dir ++ [new]))) :
    SameAt p d (d.set (dir ++ [new]) (.file bytes mode)) := by
  refine fun place e => ⟨fun h => ?_, find_extends (extends_set hfree _)⟩
  rcases find_of_set hfree h with hfind | ⟨rfl, -⟩
  · exact hfind
  · exact absurd (hd.spot_of_find_set hfree hfit h) hno

theorem prepared_of_withParent (hd : d.Rooted) (hv : d.Vacant p)
    (h : Writer.withParent d p = (.ok (), d₀)) : d.Prepared p d₀ := by
  rcases (grown_of_withParent hd h).2 with rfl | ⟨q, left, dir, name, hq, hname, hb, hm, hdir⟩
  · exact ⟨.inl rfl, fun _ _ => .rfl, hv⟩
  · refine ⟨.inr ⟨q, dir, .single hq, hm.found, hm.grown⟩,
      fun place e => ⟨fun hfind => ?_, find_extends hm.grown.toExtends⟩, ?_⟩
    · exact absurd hfind (hb.find_ne hname (hm.grown.free (hd.entry?_concat hdir name)))
    · exact hb.vacant (hm.grown.free (hd.entry?_concat hdir _))

/-- Directories that were made stay if the rest of them cannot be made. -/
theorem prepared_of_blocked (hd : d.Rooted) {refusal : Refusal}
    (h : Writer.withParent d p = (.error refusal, d₀)) : d.Prepared p d₀ ∧ ¬d₀.Housed p := by
  obtain ⟨hno, hgrown⟩ := blocked_of_withParent hd h
  have hx : Extends d d₀ := by
    have hx := extends_withParent d p
    rwa [h] at hx
  refine ⟨⟨hgrown.imp_right ?_, fun place e => ⟨fun hfind => ?_, find_extends hx⟩, ?_⟩, hno⟩
  · rintro ⟨q, place, hq, hm⟩
    exact ⟨q, place, hq, hm.found, hm.grown⟩
  · exact absurd (housed_of_find hfind) hno
  · intro place e hs
    rw [temporaryPath_eq] at hs
    exact hno (housed_of_spot (plain_neighbour d₀ p).2.2.2 hs)

theorem create_of_spot (hparent : Writer.withParent d p = (.ok (), d₀))
    (h : ∀ spot, d₀.spot true (Writer.temporaryPath d₀.stamp p) ≠ .ok spot) :
    ∃ refusal, Writer.create d p = (.error refusal, d₀) := by
  have hopen : ∃ cause, d₀.truncate (Writer.temporaryPath d₀.stamp p) = .error cause := by
    unfold truncate
    split
    next => exact ⟨_, rfl⟩
    next =>
      cases hs : d₀.spot true (Writer.temporaryPath d₀.stamp p) with
      | ok spot => exact absurd hs (h spot)
      | error cause => exact ⟨cause, rfl⟩
  obtain ⟨cause, hopen⟩ := hopen
  refine ⟨⟨Writer.temporaryPath d₀.stamp p, cause⟩, ?_⟩
  rw [Writer.create, hparent]
  dsimp only
  rw [hopen]

theorem commit_of_landing {w : Writer} {cause : Cause} (h : w.landing d = .error cause) :
    w.commit d = (.error ⟨w.destination.text, cause⟩, w.drop d) := by
  rw [Writer.commit, h]

theorem landing_of_nameless {w : Writer} (hname : w.destination.fileName? = none) (d : Disk) :
    ∃ cause, w.landing d = .error cause := by
  by_cases ht : w.destination.text = []
  · exact ⟨.notFound, by rw [Writer.landing, if_neg (by simp [ht]), spot, if_pos ht]⟩
  · exact ⟨.busy, if_pos ⟨ht, hname⟩⟩

namespace Beside

variable (h : d.Beside p left dir)

include h

theorem not_mem_text (hz : '\x00' ∉ d.neighbour p) (hname : p.fileName? = some name) :
    '\x00' ∉ p.text := by
  have hnul : '\x00' ∉ name := by
    intro hm
    refine hz ?_
    rw [neighbour, hname]
    simp [Writer.temporaryName, hm]
  rw [(Path.text_of_fileName? hname).2]
  simp [h.nul, hnul]

theorem fixed_iff (hname : p.fileName? = some name) (hz : '\x00' ∉ p.text) (hfit : d.Fits p) :
    d.Fixed p ↔ d.entry? (dir ++ [name]) = some .directory := by
  rw [Fixed, h.spot_own hz (Extends.refl d) hname fun _ => hfit.name_le hname, hname]
  cases d.entry? (dir ++ [name]) <;> simp [eq_comm]

theorem landed (hname : p.fileName? = some name) (hz : '\x00' ∉ p.text) (hfit : d.Fits p)
    (hno : ¬d.Fixed p) (bytes : Bytes) : d.Landed p bytes (dir ++ [name]) (d.modeOf p bytes)
      (d.set (dir ++ [name]) (.file bytes (d.modeOf p bytes))) := by
  have hn := descends_of_plain (Path.text_of_fileName? hname).1
  have hown := (h.fixed_iff hname hz hfit).not.mp hno
  refine ⟨?_, rfl, fun place e => h.find_set_iff hname hz bytes _, ?_, fun old hold => ?_,
    fun old hold hkept => ?_⟩
  · rw [h.spot_own hz (Extends.refl d) hname fun _ => hfit.name_le hname]
    cases he : d.entry? (dir ++ [name]) with
    | none => exact .inl rfl
    | some e => exact .inr ⟨e, fun hdir => hown (he.trans (congrArg some hdir)), rfl⟩
  · rintro (hl | hfile)
    · exact ⟨left, dir, h.remove hn fun _ _ _ => Passes.not_directory hn hown hl⟩
    · unfold isFile at hfile
      split at hfile
      next hfind => exact ⟨left, dir, h.remove hn (h.leaf hfind hname)⟩
      next => simp at hfile
  · rw [modeOf, hold]
    exact d.modes.kept_and old bytes
  · rw [modeOf, hold]
    exact d.modes.kept_eq old hkept

theorem pending (hd : d.Rooted) (hz : '\x00' ∉ d.neighbour p) (hfit : d.Fits p)
    (hfree : d.entry? (dir ++ [d.neighbour p]) = none) (bytes : Bytes) :
    d.Pending p ⟨p, Writer.temporaryPath d.stamp p, dir ++ [d.neighbour p]⟩ bytes
      (d.set (dir ++ [d.neighbour p]) (.file bytes (d.modeOf p bytes))) := by
  have hdrop := h.drop_eq hz hfree bytes (d.modeOf p bytes)
  constructor
  case beside => exact ⟨left, dir, h, rfl⟩
  case free => exact hfree
  case same => exact sameAt_set hd hfree hfit.1 bytes _
  case shown => exact fun hs => ⟨_, (find_set_of_free hs (by simp)).2.2⟩
  case dropped => exact hdrop
  case refused =>
    intro hfixed
    have hland : ∃ cause,
        Writer.landing ⟨p, Writer.temporaryPath d.stamp p, dir ++ [d.neighbour p]⟩
          (d.set (dir ++ [d.neighbour p]) (.file bytes (d.modeOf p bytes))) = .error cause := by
      cases hname : p.fileName? with
      | none => exact landing_of_nameless hname _
      | some name =>
        have htext := h.not_mem_text hz hname
        have hx := extends_set hfree (.file bytes (d.modeOf p bytes))
        have hdir := hx.kept _ _ ((h.fixed_iff hname htext hfit).mp hfixed)
        have hspot := h.spot_own htext hx hname fun _ => hfit.name_le hname
        rw [hdir] at hspot
        refine ⟨.isDirectory, ?_⟩
        rw [Writer.landing, if_neg (by simp [hname])]
        dsimp only
        rw [hspot]
        rfl
    obtain ⟨cause, hland⟩ := hland
    exact ⟨cause, (commit_of_landing hland).trans (congrArg (Prod.mk _) hdrop)⟩
  case committed =>
    intro hno
    obtain ⟨name, hname⟩ := Option.ne_none_iff_exists'.mp fun hname => hno (.inl hname)
    have htext := h.not_mem_text hz hname
    have hother : dir ++ [d.neighbour p] ≠ dir ++ [name] := by simpa using neighbour_ne hname
    refine ⟨dir ++ [name], _, _, h.commit_eq hname htext hfit hfree
      ((h.fixed_iff hname htext hfit).not.mp hno) bytes _, h.landed hname htext hfit hno bytes, ?_⟩
    rw [entry?_set (by simp), if_neg hother, hfree]

end Beside

/-- A writer replaces what its path names in one step or not at all, if nothing bears the name of its
temporary neighbour. -/
theorem exists_replacing (hd : d.Rooted) (hv : d.Vacant p) : ∃ d₀, d.Prepared p d₀ ∧
    ((∃ refusal, Writer.create d p = (.error refusal, d₀) ∧
        (¬d₀.Housed p ∨ '\x00' ∈ p.text ∨ ¬d₀.Fits p)) ∨
      ∃ w d₁, Writer.create d p = (.ok w, d₁) ∧ w.destination = p ∧ ∀ chunks : List Bytes,
        d₀.Pending p w chunks.flatten (chunks.foldl w.write d₁)) := by
  rcases hparent : Writer.withParent d p with ⟨refusal | ⟨⟨⟩⟩, d₀⟩
  · obtain ⟨hprepared, hno⟩ := prepared_of_blocked hd hparent
    exact ⟨d₀, hprepared, .inl ⟨refusal, by rw [Writer.create, hparent], .inl hno⟩⟩
  · have hprepared := prepared_of_withParent hd hv hparent
    refine ⟨d₀, hprepared, ?_⟩
    by_cases hz : '\x00' ∈ d₀.neighbour p
    · refine .inl ?_
      obtain ⟨refusal, hcreate⟩ := create_of_spot hparent fun spot hs => (spot_ok hs).2 <| by
        rw [temporaryPath_eq]
        exact List.mem_append_right _ hz
      exact ⟨refusal, hcreate, .inr (.inl (by_contra fun hno => not_mem_neighbour d₀ hno hz))⟩
    by_cases hh : d₀.Housed p
    · obtain ⟨left, dir, hb⟩ := hh
      have hfree := hb.free hprepared.vacant hz
      by_cases hfit : d₀.Fits p
      · refine .inr ⟨_, _, hb.create_eq hparent hfit hz hfree, rfl, fun chunks => ?_⟩
        rw [foldl_write_set d₀ p _ (by simp)]
        exact hb.pending (grown_of_withParent hd hparent).1 hz hfit hfree chunks.flatten
      · exact .inl ⟨_, hb.create_of_not_fits hparent hfit hz hfree, .inr (.inr hfit)⟩
    · refine .inl ?_
      obtain ⟨refusal, hcreate⟩ := create_of_spot hparent fun spot hs => hh <| by
        rw [temporaryPath_eq] at hs
        exact housed_of_spot (plain_neighbour d₀ p).2.2.2 hs
      exact ⟨refusal, hcreate, .inl hh⟩

/-- The only way to the directory at `/a` is over the link at `/b`. -/
def detouredDisk : Disk :=
  ((bare.set ["a"] (.link "b/..")).set ["b"] (.link "c")).set ["c"] .directory

/-- The link at `/l` leads to the name of its own temporary neighbour. -/
def selfLinkedDisk : Disk :=
  bare.set ["l"] (.link ".l.0.tmp")

/-- The file at `/f` runs with the rights of its owner and its group. -/
def privilegedDisk : Disk :=
  bare.set ["f"] (.file [] 0o6755#12)

theorem rooted_detouredDisk : detouredDisk.Rooted := by
  unfold Rooted
  decide +kernel

theorem vacant_detouredDisk : detouredDisk.Vacant (.ofText "/a/b") := by
  decide +kernel

theorem exists_replacing_detouredDisk : detouredDisk.Rooted ∧
    detouredDisk.Vacant (.ofText "/a/b") ∧ ∃ d₀, detouredDisk.Prepared (.ofText "/a/b") d₀ ∧
      ((∃ refusal, Writer.create detouredDisk (.ofText "/a/b") = (.error refusal, d₀) ∧
          (¬d₀.Housed (.ofText "/a/b") ∨ '\x00' ∈ (Path.ofText "/a/b").text ∨
            ¬d₀.Fits (.ofText "/a/b"))) ∨
        ∃ w d₁, Writer.create detouredDisk (.ofText "/a/b") = (.ok w, d₁) ∧
          w.destination = .ofText "/a/b" ∧ ∀ chunks : List Bytes,
            d₀.Pending (.ofText "/a/b") w chunks.flatten (chunks.foldl w.write d₁)) :=
  ⟨rooted_detouredDisk, vacant_detouredDisk,
    exists_replacing rooted_detouredDisk vacant_detouredDisk⟩

theorem exists_committed {w : Writer} {bytes : Bytes} {found : Except Cause (Place × Entry)}
    (hcreate : (Writer.create d p).1 = .ok w)
    (hcommit : (w.commit (w.write (Writer.create d p).2 bytes)).1 = .ok ())
    (hfind : (w.commit (w.write (Writer.create d p).2 bytes)).2.find p.text = found) :
    ∃ w d₁ d₂, Writer.create d p = (.ok w, d₁) ∧ w.commit (w.write d₁ bytes) = (.ok (), d₂) ∧
      d₂.find p.text = found :=
  ⟨w, _, _, Prod.ext hcreate rfl, Prod.ext hcommit rfl, hfind⟩

/-- A file that takes the place of a link on its own way is not found again; a path that leads to
the name of its temporary neighbour leads to that file before it is committed; and a file that ran
with the rights of others does so no more. -/
theorem astray_detouredDisk :
    (detouredDisk.Rooted ∧ detouredDisk.Vacant (.ofText "/a/b") ∧ ∃ w d₁ d₂,
      Writer.create detouredDisk (.ofText "/a/b") = (.ok w, d₁) ∧
        w.commit (w.write d₁ (Text.Utf8.encode "x")) = (.ok (), d₂) ∧
        d₂.find "/a/b" = .error .notDirectory) ∧
    (selfLinkedDisk.Rooted ∧ selfLinkedDisk.Vacant (.ofText "/l") ∧
      selfLinkedDisk.find "/l" = .error .notFound ∧ ∃ w d₁,
        Writer.create selfLinkedDisk (.ofText "/l") = (.ok w, d₁) ∧
          d₁.find "/l" = .ok (w.opened, .file [] 0o644#12)) ∧
    privilegedDisk.Rooted ∧ privilegedDisk.Vacant (.ofText "/f") ∧
      privilegedDisk.find "/f" = .ok (["f"], .file [] 0o6755#12) ∧ ∃ w d₁ d₂,
        Writer.create privilegedDisk (.ofText "/f") = (.ok w, d₁) ∧
          w.commit (w.write d₁ (Text.Utf8.encode "x")) = (.ok (), d₂) ∧
          d₂.find "/f" = .ok (["f"], .file (Text.Utf8.encode "x") 0o755#12) := by
  have hopened : (Writer.create selfLinkedDisk (.ofText "/l")).1 =
      .ok ⟨.ofText "/l", "/.l.0.tmp", [".l.0.tmp"]⟩ := by decide +kernel
  refine ⟨⟨rooted_detouredDisk, vacant_detouredDisk, ?_⟩,
    ⟨?_, by decide +kernel, ?_, _, _, Prod.ext hopened rfl, ?_⟩,
    ?_, by decide +kernel, ?_, ?_⟩
  · exact exists_committed (w := ⟨.ofText "/a/b", "/a/.b.0.tmp", [".b.0.tmp"]⟩) (by decide +kernel)
      (by decide +kernel) (by decide +kernel)
  · unfold Rooted
    decide +kernel
  · decide +kernel
  · decide +kernel
  · unfold Rooted
    decide +kernel
  · decide +kernel
  · exact exists_committed (w := ⟨.ofText "/f", "/.f.0.tmp", [".f.0.tmp"]⟩) (by decide +kernel)
      (by decide +kernel) (by decide +kernel)

end BlockSync.Disk
