import BlockSync.Proofs.Disk.Beside
import BlockSync.Proofs.Path.Ancestors
import Mathlib.Logic.Relation

/-! The directories above a path. Making them adds directories on the way down to the path and nothing
else, and what is not there before the last of them is made is not there afterwards. -/

namespace BlockSync.Disk

open BlockSync.Path (HeldBy)
open Relation (ReflTransGen TransGen)

variable {d d' d₁ : Disk} {p q : Path} {left : Nat} {dir place below : Place} {name : Text}
  {cause : Cause}

/-- Only directories were added, all of them on the way down to the place. -/
structure Grown (d d' : Disk) (place : Place) : Prop extends Extends d d' where
  made : ∀ other e, d'.entry? other = some e → d.entry? other = none →
    e = .directory ∧ other <+: place

theorem Grown.refl (d : Disk) (place : Place) : Grown d d place :=
  ⟨Extends.refl d, fun _ _ he hn => by simp [he] at hn⟩

theorem grown_set (hfree : d.entry? place = none) : Grown d (d.set place .directory) place := by
  refine ⟨extends_set hfree _, fun other e he hn => ?_⟩
  rw [entry?_set (ne_nil_of_free hfree)] at he
  split at he
  next hother => exact ⟨(Option.some.inj he).symm, hother ▸ List.prefix_refl _⟩
  next => simp [he] at hn

theorem Grown.trans (h : Grown d d₁ place) (h' : Grown d₁ d' below) (hp : place <+: below) :
    Grown d d' below := by
  refine ⟨h.toExtends.trans h'.toExtends, fun other e he hn => ?_⟩
  cases hmid : d₁.entry? other with
  | none => exact h'.made other e he hmid
  | some e' =>
    obtain rfl : e' = e := Option.some.inj ((h'.kept _ _ hmid).symm.trans he)
    exact (h.made other e' hmid hn).imp_right (·.trans hp)

/-- Nothing was added behind the place. -/
theorem Grown.free (h : Grown d d' place) (hfree : d.entry? (place ++ [name]) = none) :
    d'.entry? (place ++ [name]) = none := by
  by_contra hne
  obtain ⟨e, he⟩ := Option.ne_none_iff_exists'.mp hne
  have hlen := (h.made _ e he hfree).2.length_le
  rw [List.length_append, List.length_singleton] at hlen
  omega

/-- The path leads to this directory. It was there, or it was made together with some above it. -/
structure Makes (d : Disk) (q : Path) (place : Place) (d' : Disk) : Prop where
  found : d'.find q.text = .ok (place, .directory)
  grown : Grown d d' place
  rooted : d'.Rooted
  new : d' = d ∨ d.entry? place = none

theorem spot_of_makeDirectory (h : d.makeDirectory q = .ok d') :
    ∃ place, d.spot false q.text = .ok (.free place) ∧ d' = d.set place .directory := by
  unfold makeDirectory at h
  split at h
  next => simp at h
  next =>
    split at h
    next place hs => exact ⟨place, hs, (Except.ok.inj h).symm⟩
    next => simp at h
    next => simp at h

theorem isDirectory_of_find (h : d.find q.text = .ok (place, .directory)) :
    d.isDirectory q = true := by
  rw [isDirectory, h]

theorem exists_find_of_isDirectory (h : d.isDirectory q = true) :
    ∃ place, d.find q.text = .ok (place, .directory) := by
  unfold isDirectory at h
  split at h
  next place hfind => exact ⟨place, hfind⟩
  next => simp at h

/-- What is above a directory on its path is one as well. -/
theorem isDirectory_above (h : d.isDirectory p = true) (hq : ReflTransGen HeldBy p q) :
    d.isDirectory q = true := by
  induction hq with
  | refl => exact h
  | tail _ hstep ih =>
    obtain ⟨place, hfind⟩ := exists_find_of_isDirectory ih
    obtain ⟨left, dir, hb⟩ := housed_of_find hfind
    exact isDirectory_of_find ((find_parent_iff hstep).mpr ⟨left, hb⟩)

theorem makeDirectory_ne_of_isDirectory (h : d.isDirectory q = true) :
    d.makeDirectory q ≠ .error .notFound := by
  obtain ⟨place, hfind⟩ := exists_find_of_isDirectory h
  obtain ⟨other, e, hs⟩ := spot_false_of_find hfind
  rw [makeDirectory, hs]
  split <;> simp

theorem extends_makeDirectory (h : d.makeDirectory q = .ok d') : Extends d d' := by
  obtain ⟨place, hs, rfl⟩ := spot_of_makeDirectory h
  exact extends_set (find_set_of_free (e := .directory) hs (by simp)).1 _

/-- Whether or not all directories can be made, nothing that was there is gone. -/
theorem extends_climb (d : Disk) (n : Nat) (p : Path) :
    Extends d (makeDirectories.climb d n p).2 := by
  induction n generalizing p with
  | zero => exact .refl d
  | succ n ih =>
    rw [makeDirectories.climb]
    split
    next hmake => exact extends_makeDirectory hmake
    next =>
      split
      next => exact .refl d
      next q _ =>
        have hclimb := ih q
        split
        next hq => exact hq ▸ hclimb
        next hq =>
          rw [hq] at hclimb
          split
          next hmake => exact hclimb.trans (extends_makeDirectory hmake)
          next => exact hclimb
    next => exact .refl d

theorem extends_withParent (d : Disk) (p : Path) : Extends d (Writer.withParent d p).2 := by
  unfold Writer.withParent
  split
  next => exact .refl d
  next parent _ =>
    have hclimb := extends_climb d parent.text.length parent
    split
    next hmake => exact (show (makeDirectories.climb d parent.text.length parent).2 = _ from
      congrArg Prod.snd hmake) ▸ hclimb
    next hmake => exact (show (makeDirectories.climb d parent.text.length parent).2 = _ from
      congrArg Prod.snd hmake) ▸ hclimb

theorem exists_makes_of_isDirectory (hd : d.Rooted) (h : d.isDirectory q = true) :
    ∃ place, Makes d q place d := by
  obtain ⟨place, hfind⟩ := exists_find_of_isDirectory h
  exact ⟨place, hfind, .refl d place, hd, .inl rfl⟩

theorem makes_of_spot (hd : d.Rooted) (h : d.spot false q.text = .ok (.free place)) :
    Makes d q place (d.set place .directory) := by
  obtain ⟨hfree, hdir, hfind⟩ := find_set_of_free (e := .directory) h (by simp)
  exact ⟨hfind, grown_set hfree, hd.set hdir hfree _, .inr hfree⟩

/-- In a directory that is there a path with a parent gets somewhere, or its name is too long. -/
theorem Beside.spot_ne (h : d.Beside p left dir) (hq : p.parent? = some q) :
    d.spot false p.text ≠ .error .notFound := by
  by_cases hz : '\x00' ∈ p.text
  · rw [spot, if_neg (List.ne_nil_of_mem hz), if_pos hz]
    simp
  rcases Path.fileName?_of_parent? hq with ⟨name, hname⟩ | ht
  · have hn := descends_of_plain (Path.text_of_fileName? hname).1
    rw [h.spot_name hz (Extends.refl d) hname]
    cases he : d.entry? (dir ++ [name]) with
    | some e =>
      rw [walk_entry h.directory hn he]
      simp
    | none =>
      intro hs
      rcases free_or_long h.directory hn he with hw | hw
      · exact absurd (hw.symm.trans hs) (by simp)
      · exact absurd (hw.symm.trans hs) (by simp)
  · have hspot : d.spot false "//" = .ok (.taken [] .directory) := rfl
    rw [ht, hspot]
    simp

theorem Beside.makeDirectory_ne (h : d.Beside p left dir) (hq : p.parent? = some q) :
    d.makeDirectory p ≠ .error .notFound := by
  have hspot := h.spot_ne hq
  rw [makeDirectory]
  split
  next => simp
  next =>
    split
    next => simp
    next => simp
    next cause hs => simpa [hs] using hspot

theorem Beside.find_ne (h : d.Beside p left dir) (hname : p.fileName? = some name)
    (hfree : d.entry? (dir ++ [name]) = none) {e : Entry} : d.find p.text ≠ .ok (place, e) := by
  intro hfind
  have hs := spot_of_find hfind
  have hn := descends_of_plain (Path.text_of_fileName? hname).1
  rw [h.spot_name (spot_ok hs).2 (Extends.refl d) hname] at hs
  rcases free_or_long h.directory hn hfree with hw | hw
  · exact absurd (hw.symm.trans hs) (by simp)
  · exact absurd (hw.symm.trans hs) (by simp)

/-- A path whose parent is new ends in a name in it. -/
theorem Makes.exists_name (h : Makes d q dir d₁) (hq : p.parent? = some q)
    (hfree : d.entry? dir = none) :
    ∃ left name, p.fileName? = some name ∧ d₁.Beside p left dir := by
  obtain ⟨left, hb⟩ := (find_parent_iff hq).mp h.found
  rcases Path.fileName?_of_parent? hq with ⟨name, hname⟩ | ht
  · exact ⟨left, name, hname, hb⟩
  · have habove : p.above = "//" := by rw [Path.above, ht]; rfl
    exact absurd ((exists_beside_top_iff (.inr habove)).mp ⟨left, hb⟩) (ne_nil_of_free hfree)

/-- If a path cannot be made for want of its parent, then the parent is new once it is made, and the
path still leads nowhere. -/
theorem Makes.exists_free (hd : d.Rooted) (h : Makes d q dir d₁) (hq : p.parent? = some q)
    (hno : d.makeDirectory p = .error .notFound) :
    d.entry? dir = none ∧ ∃ left name, p.fileName? = some name ∧ d₁.Beside p left dir ∧
      d₁.entry? (dir ++ [name]) = none := by
  have hfree : d.entry? dir = none := by
    rcases h.new with rfl | hfree
    · obtain ⟨left, hb⟩ := (find_parent_iff hq).mp h.found
      exact absurd hno (hb.makeDirectory_ne hq)
    · exact hfree
  obtain ⟨left, name, hname, hb⟩ := h.exists_name hq hfree
  exact ⟨hfree, left, name, hname, hb, h.grown.free (hd.entry?_concat hfree name)⟩

/-- A path is made in its parent that was just made. -/
theorem Makes.exists_below (hd : d.Rooted) (h : Makes d q dir d₁) (hq : p.parent? = some q)
    (hno : d.makeDirectory p = .error .notFound) (hmake : d₁.makeDirectory p = .ok d') :
    ∃ place, Makes d p place d' := by
  obtain ⟨hdir, left, name, hname, hb, hfree⟩ := h.exists_free hd hq hno
  obtain ⟨place, hs, rfl⟩ := spot_of_makeDirectory hmake
  obtain rfl : place = dir ++ [name] := by
    have hn := descends_of_plain (Path.text_of_fileName? hname).1
    have hown := hs
    rw [hb.spot_name (spot_ok hs).2 (Extends.refl d₁) hname] at hown
    rcases free_or_long hb.directory hn hfree with hw | hw
    · exact Spot.free.inj (Except.ok.inj (hown.symm.trans hw))
    · exact absurd (hw.symm.trans hown) (by simp)
  have hmakes := makes_of_spot h.rooted hs
  exact ⟨_, hmakes.found, h.grown.trans hmakes.grown (List.prefix_append _ _), hmakes.rooted,
    .inr (hd.entry?_concat hdir name)⟩

/-- The path cannot be made, or something above it cannot. At most directories above that were. -/
structure Blocked (d : Disk) (p : Path) (d' : Disk) : Prop where
  stopped : ∃ q, ReflTransGen HeldBy p q ∧ d'.isDirectory q = false
  grown : d' = d ∨ ∃ q place, TransGen HeldBy p q ∧ Makes d q place d'

theorem blocked_self (h : d.isDirectory p = false) : Blocked d p d :=
  ⟨⟨p, .refl, h⟩, .inl rfl⟩

theorem Blocked.of_parent (h : Blocked d q d') (hq : p.parent? = some q) : Blocked d p d' := by
  obtain ⟨⟨r, hr, hstop⟩, hgrown⟩ := h
  refine ⟨⟨r, .head hq hr, hstop⟩, hgrown.imp_right ?_⟩
  rintro ⟨r, place, hr, hm⟩
  exact ⟨r, place, .head hq hr, hm⟩

/-- What a climb comes to: the path leads to a directory, or something stopped it. -/
theorem makes_or_blocked_of_climb (hd : d.Rooted) {n : Nat} (hlen : p.text.length ≤ n)
    {made : Except Cause Unit} (h : makeDirectories.climb d n p = (made, d')) :
    (made = .ok () → ∃ place, Makes d p place d') ∧
      ∀ cause, made = .error cause → Blocked d p d' := by
  induction n generalizing p made d' with
  | zero =>
    obtain ⟨rfl, rfl⟩ := Prod.mk.inj h
    refine ⟨by simp, fun _ _ => blocked_self ?_⟩
    rw [isDirectory, List.length_eq_zero_iff.mp (Nat.le_zero.mp hlen)]
    rfl
  | succ n ih =>
    rw [makeDirectories.climb] at h
    split at h
    case h_1 hmake =>
      obtain ⟨rfl, rfl⟩ := Prod.mk.inj h
      obtain ⟨place, hs, rfl⟩ := spot_of_makeDirectory hmake
      exact ⟨fun _ => ⟨place, makes_of_spot hd hs⟩, by simp⟩
    case h_2 hno =>
      split at h
      next =>
        obtain ⟨rfl, rfl⟩ := Prod.mk.inj h
        refine ⟨by simp, fun _ _ => blocked_self ?_⟩
        exact Bool.eq_false_iff.mpr fun hdir => makeDirectory_ne_of_isDirectory hdir hno
      next q hq =>
        have hshort : q.text.length < p.text.length := HeldBy.length_lt hq
        split at h
        next hclimb =>
          obtain ⟨rfl, rfl⟩ := Prod.mk.inj h
          exact ⟨by simp, fun _ _ => ((ih (by omega) hclimb).2 _ rfl).of_parent hq⟩
        next d₁ hclimb =>
          obtain ⟨dir, hm⟩ := (ih (by omega) hclimb).1 rfl
          split at h
          next d' hmake =>
            obtain ⟨rfl, rfl⟩ := Prod.mk.inj h
            exact ⟨fun _ => hm.exists_below hd hq hno hmake, by simp⟩
          next =>
            -- the path leads nowhere in its new parent, so it is no directory either
            have hdir : d₁.isDirectory p = false := by
              obtain ⟨-, left, name, hname, hb, hfree⟩ := hm.exists_free hd hq hno
              refine Bool.eq_false_iff.mpr fun hdir => ?_
              obtain ⟨place, hfind⟩ := exists_find_of_isDirectory hdir
              exact hb.find_ne hname hfree hfind
            rw [hdir] at h
            obtain ⟨rfl, rfl⟩ := Prod.mk.inj h
            exact ⟨by simp, fun _ _ => ⟨⟨p, .refl, hdir⟩, .inr ⟨q, dir, .single hq, hm⟩⟩⟩
    case h_3 hmake =>
      obtain ⟨rfl, rfl⟩ := Prod.mk.inj h
      cases hdir : d.isDirectory p with
      | true => exact ⟨fun _ => exists_makes_of_isDirectory hd hdir, by simp⟩
      | false => exact ⟨by simp, fun _ _ => blocked_self hdir⟩

/-- The directories above a path are as they were, or the last of them is new, and the way down to
it. -/
theorem grown_of_withParent (hd : d.Rooted) (h : Writer.withParent d p = (.ok (), d')) :
    d'.Rooted ∧ (d' = d ∨ ∃ q left dir name, p.parent? = some q ∧ p.fileName? = some name ∧
      d'.Beside p left dir ∧ Makes d q dir d' ∧ d.entry? dir = none) := by
  unfold Writer.withParent at h
  split at h
  next =>
    obtain ⟨-, rfl⟩ := Prod.mk.inj h
    exact ⟨hd, .inl rfl⟩
  next q hq =>
    split at h
    next d₁ hmake =>
      obtain ⟨-, rfl⟩ := Prod.mk.inj h
      obtain ⟨dir, hm⟩ := (makes_or_blocked_of_climb hd (Nat.le_refl _) hmake).1 rfl
      refine ⟨hm.rooted, hm.new.imp_right fun hfree => ?_⟩
      obtain ⟨left, name, hname, hb⟩ := hm.exists_name hq hfree
      exact ⟨q, left, dir, name, hq, hname, hb, hm, hfree⟩
    next => simp at h

/-- If the directory of a path cannot be made, then the path leads nowhere. -/
theorem blocked_of_withParent (hd : d.Rooted) {refusal : Refusal}
    (h : Writer.withParent d p = (.error refusal, d')) : ¬d'.Housed p ∧
      (d' = d ∨ ∃ q place, TransGen HeldBy p q ∧ Makes d q place d') := by
  unfold Writer.withParent at h
  split at h
  next => simp at h
  next q hq =>
    split at h
    next => simp at h
    next hmake =>
      obtain ⟨-, rfl⟩ := Prod.mk.inj h
      have hblocked := (makes_or_blocked_of_climb hd (Nat.le_refl _) hmake).2 _ rfl
      refine ⟨?_, (hblocked.of_parent hq).grown⟩
      rintro ⟨left, dir, hb⟩
      obtain ⟨r, hr, hstop⟩ := hblocked.stopped
      have hdir := isDirectory_of_find ((find_parent_iff hq).mpr ⟨left, hb⟩)
      simp [isDirectory_above hdir hr] at hstop

end BlockSync.Disk
