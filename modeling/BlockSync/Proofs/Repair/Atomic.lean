import BlockSync.Proofs.Disk.Beside
import BlockSync.Repair

/-! All fixes of a file are applied, or none. A real run writes the neighbour before it knows whether
all of them apply, and takes it away again if they do not, so a dry run gives the same answer. Only
a neighbour that cannot be named is missed by a dry run. -/

namespace BlockSync.Repair

open Disk (Cause)
open Text.Utf8 (encode)

/-- Why no fix is applied. The file is opened first, and what it holds is only read once it has its
neighbour. -/
inductive Hindrance (d : Disk) (p : Path) (fixes : List Fix) : Failure → Prop
  | unopened {cause : Cause} (h : d.lines p = .error cause) :
      Hindrance d p fixes (.refused ⟨p.text, cause⟩)
  | unnamed {reading : List Line × Option Cause} (h : d.lines p = .ok reading) (hfit : ¬d.Fits p) :
      Hindrance d p fixes (.refused ⟨Disk.Writer.temporaryPath d.stamp p, .nameTooLong⟩)
  | unread {lines : List Line} {cause : Cause} (h : d.lines p = .ok (lines, some cause))
      (hfit : d.Fits p) : Hindrance d p fixes (.refused ⟨p.text, cause⟩)
  | stale {lines : List Line} (h : d.lines p = .ok (lines, none)) (hfit : d.Fits p)
      (hs : (rewrite lines fixes).applied ≠ fixes.length) :
      Hindrance d p fixes (.staleFixes p.text fixes.length (rewrite lines fixes).applied)

variable {d : Disk} {p : Path} {fixes : List Fix} {lines : List Line}

theorem exists_find_of_lines {fault : Option Cause} (h : d.lines p = .ok (lines, fault)) :
    ∃ place e, d.find p.text = .ok (place, e) ∧
      (fault = none → ∃ bytes mode, e = .file bytes mode) := by
  unfold Disk.lines at h
  split at h
  next place bytes mode hfind => exact ⟨place, _, hfind, fun _ => ⟨bytes, mode, rfl⟩⟩
  next place e hfind =>
    obtain ⟨-, rfl⟩ := Prod.mk.inj (Except.ok.inj h)
    exact ⟨_, _, hfind, by simp⟩
  next => simp at h

theorem apply_of_error {cause : Cause} (h : d.lines p = .error cause) (dryRun : Bool) :
    apply d p fixes dryRun = (.error (.refused ⟨p.text, cause⟩), d) := by
  rw [apply, h]

/-- A dry run opens no neighbour. -/
theorem apply_dryRun_disk (d : Disk) (p : Path) (fixes : List Fix) :
    (apply d p fixes true).2 = d := by
  unfold apply
  split
  next => rfl
  next =>
    dsimp only
    rw [if_pos rfl]
    split
    next => rfl
    next => split <;> rfl

theorem apply_of_unnamed (hv : d.Vacant p) (hfit : ¬d.Fits p) {reading : List Line × Option Cause}
    (h : d.lines p = .ok reading) : apply d p fixes false =
      (.error (.refused ⟨Disk.Writer.temporaryPath d.stamp p, .nameTooLong⟩), d) := by
  obtain ⟨place, e, hfind, -⟩ := exists_find_of_lines h
  simp only [apply, h, Bool.false_eq_true, if_false, Disk.create_of_not_fits hv hfit hfind]

/-- A file that does not read to its end gets its neighbour, which does not stay. -/
theorem apply_of_fault (hv : d.Vacant p) (hfit : d.Fits p) {cause : Cause}
    (h : d.lines p = .ok (lines, some cause)) (dryRun : Bool) :
    apply d p fixes dryRun = (.error (.refused ⟨p.text, cause⟩), d) := by
  obtain ⟨place, e, hfind, -⟩ := exists_find_of_lines h
  obtain ⟨w, d₁, hcreate, hdrop, -⟩ := Disk.exists_writer hv hfit hfind
  cases dryRun with
  | true => simp only [apply, h, if_true]
  | false => simp only [apply, h, Bool.false_eq_true, if_false, hcreate, hdrop]

theorem apply_of_stale (hv : d.Vacant p) (hfit : d.Fits p) (h : d.lines p = .ok (lines, none))
    (hs : (rewrite lines fixes).applied ≠ fixes.length) (dryRun : Bool) :
    apply d p fixes dryRun =
      (.error (.staleFixes p.text fixes.length (rewrite lines fixes).applied), d) := by
  obtain ⟨place, e, hfind, -⟩ := exists_find_of_lines h
  obtain ⟨w, d₁, hcreate, hdrop, -⟩ := Disk.exists_writer hv hfit hfind
  cases dryRun with
  | true => simp only [apply, h, if_true, hs, if_false]
  | false => simp only [apply, h, Bool.false_eq_true, if_false, hcreate, hs, hdrop]

theorem apply_dryRun_of_applied (h : d.lines p = .ok (lines, none))
    (ha : (rewrite lines fixes).applied = fixes.length) :
    apply d p fixes true = (.ok fixes.length, d) := by
  simp only [apply, h, if_true, ha]

theorem exists_apply_swapped (hv : d.Vacant p) (hfit : d.Fits p) (h : d.lines p = .ok (lines, none))
    (ha : (rewrite lines fixes).applied = fixes.length) :
    ∃ d', apply d p fixes false = (.ok fixes.length, d') ∧
      d.Swapped p (encode (rewrite lines fixes).output) d' := by
  obtain ⟨place, e, hfind, hfile⟩ := exists_find_of_lines h
  obtain ⟨bytes, mode, he⟩ := hfile rfl
  obtain ⟨w, d₁, hcreate, -, hcommit⟩ := Disk.exists_writer hv hfit hfind
  obtain ⟨d', hd', hswapped⟩ := hcommit bytes mode he (encode (rewrite lines fixes).output)
  refine ⟨d', ?_, hswapped⟩
  simp only [apply, h, Bool.false_eq_true, if_false, hcreate, ha, if_true, hd']

/-- If no file bears the neighbour's name, a dry run tells what a real run answers, unless the file
can be opened but its neighbour cannot be named, and changes nothing. A real run leaves the disk as
it was unless all fixes apply, and then only the path's own entry is another. -/
theorem apply_all_or_nothing (hv : d.Vacant p) (fixes : List Fix) :
    (apply d p fixes true).2 = d ∧
      (d.Fits p ∨ (∃ cause, d.lines p = .error cause) →
        (apply d p fixes true).1 = (apply d p fixes false).1) ∧
      ((∃ failure, Hindrance d p fixes failure ∧ apply d p fixes false = (.error failure, d)) ∨
        ∃ lines d', d.lines p = .ok (lines, none) ∧
          (rewrite lines fixes).applied = fixes.length ∧
          apply d p fixes false = (.ok fixes.length, d') ∧
          d.Swapped p (encode (rewrite lines fixes).output) d') := by
  refine ⟨apply_dryRun_disk d p fixes, ?_⟩
  cases hl : d.lines p with
  | error cause =>
    rw [apply_of_error hl, apply_of_error hl]
    exact ⟨fun _ => rfl, .inl ⟨_, .unopened hl, rfl⟩⟩
  | ok reading =>
    obtain ⟨lines, fault⟩ := reading
    by_cases hfit : d.Fits p
    case neg =>
      rw [apply_of_unnamed hv hfit hl]
      exact ⟨by simp [hfit], .inl ⟨_, .unnamed hl hfit, rfl⟩⟩
    cases fault with
    | some cause =>
      rw [apply_of_fault hv hfit hl, apply_of_fault hv hfit hl]
      exact ⟨fun _ => rfl, .inl ⟨_, .unread hl hfit, rfl⟩⟩
    | none =>
      by_cases ha : (rewrite lines fixes).applied = fixes.length
      · obtain ⟨d', happly, hswapped⟩ := exists_apply_swapped hv hfit hl ha
        rw [apply_dryRun_of_applied hl ha, happly]
        exact ⟨fun _ => rfl, .inr ⟨lines, d', rfl, ha, rfl, hswapped⟩⟩
      · rw [apply_of_stale hv hfit hl ha, apply_of_stale hv hfit hl ha]
        exact ⟨fun _ => rfl, .inl ⟨_, .stale hl hfit ha, rfl⟩⟩

/-- A fix of a file that is reached through a link puts a file in the place of the link. -/
theorem apply_all_or_nothing_link :
    let d := (Disk.bare.set ["a"] (.file (encode "x\r\ny") 0o750#12)).set ["l"] (.link "a")
    let fixes : List Fix := [.replace 1 "z" [] "x"]
    (d.Vacant (.ofText "l") ∧ d.Fits (.ofText "l")) ∧
      apply d (.ofText "l") fixes true = (.ok 1, d) ∧
        apply d (.ofText "l") fixes false =
          (.ok 1, d.set ["l"] (.file (encode "z\r\ny") 0o750#12)) := by
  intro d fixes
  have hv : d.Vacant (.ofText "l") := by decide +kernel
  have hfit : d.Fits (.ofText "l") := by decide +kernel
  have hread : d.lines (.ofText "l") = .ok ([⟨"x", "\r\n"⟩, ⟨"y", []⟩], none) := by decide +kernel
  have hlink : d.spot false "l" = .ok (.taken ["l"] (.link "a")) := by decide +kernel
  have hfile : d.find "l" = .ok (["a"], .file (encode "x\r\ny") 0o750#12) := by decide +kernel
  have hrewrite : rewrite [⟨"x", "\r\n"⟩, ⟨"y", []⟩] fixes = ⟨1, "z\r\ny"⟩ := by decide +kernel
  obtain ⟨hdry, hsame, hreal⟩ := apply_all_or_nothing hv fixes
  rcases hreal with ⟨failure, hh, -⟩ | ⟨lines, d', hl, -, happly, hswapped⟩
  · cases hh with
    | unopened h | unread h => exact absurd (hread.symm.trans h) (by simp)
    | unnamed _ hno => exact absurd hfit hno
    | stale h _ hs =>
      obtain ⟨rfl, -⟩ := Prod.mk.inj (Except.ok.inj (hread.symm.trans h))
      exact absurd (congrArg Rewritten.applied hrewrite) hs
  · obtain ⟨rfl, -⟩ := Prod.mk.inj (Except.ok.inj (hread.symm.trans hl))
    obtain ⟨own, old, place, bytes, mode, hown, hfind, rfl, -⟩ := hswapped
    obtain ⟨rfl, -⟩ := Disk.Spot.taken.inj (Except.ok.inj (hlink.symm.trans hown))
    obtain ⟨-, he⟩ := Prod.mk.inj (Except.ok.inj (hfile.symm.trans hfind))
    obtain ⟨-, rfl⟩ := Disk.Entry.file.inj he
    rw [hrewrite] at happly
    have hanswer := hsame (.inl hfit)
    rw [happly] at hanswer
    exact ⟨⟨hv, hfit⟩, Prod.ext hanswer hdry, happly⟩

/-- A name that leaves no room for that of its neighbour. -/
def longName : Text :=
  List.replicate 250 'a'

def longDisk : Disk :=
  Disk.bare.set [longName] (.file (encode "x\n") 0o644#12)

/-- A dry run does not tell that the neighbour of a file cannot be named. -/
theorem apply_longDisk :
    let fixes : List Fix := [.replace 1 "z" [] "x"]
    longDisk.Vacant (.ofText longName) ∧
      (apply longDisk (.ofText longName) fixes true).1 = .ok 1 ∧
      (apply longDisk (.ofText longName) fixes false).1 =
        .error (.refused ⟨Disk.Writer.temporaryName 0 longName, .nameTooLong⟩) := by
  intro fixes
  exact ⟨by decide +kernel, by decide +kernel, by decide +kernel⟩

end BlockSync.Repair
