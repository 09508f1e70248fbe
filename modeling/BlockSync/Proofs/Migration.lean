import BlockSync.Cache.Scan
import BlockSync.Migration
import BlockSync.Proofs.Path.Below
import BlockSync.Proofs.SortedMap

/-! What a migrated target means where it is written. Migrations compare texts, and a target is not
said to have moved if its text stays the same; but a text that is not spelled the way paths are may
stand for the very path that it replaces. -/

namespace BlockSync

namespace Migrations

variable {mode : MigrationMode} {m : Migrations} {known known' : SortedMap Text Text}
  {relative moved : Text}

theorem mem_of_longest {entries : List (Text × Text)} {e : Text × Text}
    (h : longest entries = some e) : e ∈ entries := by
  induction entries with
  | nil => simp [longest] at h
  | cons first rest ih =>
    rw [longest] at h
    split at h
    next => exact Option.some.inj h ▸ List.mem_cons_self
    next f hf =>
      split at h
      next => exact Option.some.inj h ▸ List.mem_cons_self
      next => exact List.mem_cons_of_mem _ (ih (hf.trans h))

/-- What moves starts with a source, and has its destination in the place of it. -/
theorem resolve_eq_some (h : m.resolve relative = some moved) :
    ∃ source destination rest, m.mappings.find? source = some destination ∧
      relative = source ++ rest ∧ moved = destination ++ rest ∧ moved ≠ relative := by
  unfold resolve at h
  split at h
  next => simp at h
  next source destination hlongest =>
    obtain ⟨hm, hp⟩ := List.mem_filter.mp (mem_of_longest hlongest)
    obtain ⟨rest, rfl⟩ := List.isPrefixOf_iff_prefix.mp hp
    have hrest : (source ++ rest).drop source.length = rest := List.drop_left
    rw [hrest] at h
    dsimp only at h
    split at h
    next => simp at h
    next hne =>
      obtain rfl := Option.some.inj h
      exact ⟨source, destination, rest, SortedMap.mem_entries_iff.mp hm, rfl, rfl, hne⟩

theorem resolveTarget_eq_some {root : Path} {target : Text}
    (h : m.resolveTarget root target = some moved) :
    ∃ relative, (Path.ofText target).relativeTo? root = some relative ∧
      m.resolve relative = some moved := by
  unfold resolveTarget at h
  split at h
  next => simp at h
  next => exact Option.bind_eq_some_iff.mp h

/-- No source is empty. -/
def Sourced (known : SortedMap Text Text) : Prop :=
  ∀ source destination, known.find? source = some destination → source ≠ []

theorem Sourced.addMapping (h : Sourced known) {e : Mapping}
    (ha : Migrations.addMapping known e = .ok known') : Sourced known' := by
  unfold Migrations.addMapping at ha
  split at ha
  next => simp at ha
  next hne =>
    split at ha
    next =>
      split at ha
      next => exact Except.ok.inj ha ▸ h
      next => simp at ha
    next =>
      obtain rfl := Except.ok.inj ha
      intro source destination hs
      rw [SortedMap.find?_insert] at hs
      split at hs
      next he => exact he ▸ hne
      next => exact h source destination hs

theorem Sourced.collect (h : Sourced known) {mappings : List Mapping}
    (hc : Migrations.collect known mappings = .ok known') : Sourced known' := by
  induction mappings generalizing known with
  | nil => exact Except.ok.inj hc ▸ h
  | cons e rest ih =>
    rw [Migrations.collect] at hc
    split at hc
    next known'' ha => exact ih (h.addMapping ha) hc
    next => simp at hc

theorem sourced_of_ofMappings {mappings : List Mapping} (h : ofMappings mode mappings = .ok m) :
    Sourced m.mappings := by
  have hempty : Sourced ∅ := by
    intro source destination hs
    simp at hs
  unfold ofMappings at h
  cases hc : collect ∅ mappings with
  | error fault => simp [hc, Except.map] at h
  | ok known =>
    rw [hc] at h
    obtain rfl := Except.ok.inj h
    exact hempty.collect hc

end Migrations

namespace Scan

open BlockSync.Path (clean slashes componentsOf kindOf)

variable {d : Disk} {root target : Path} {reference moved relative : Text}

/-- The text that a reference stands for in a file with this root, before it is cleaned. -/
def spelling (root : Path) (reference : Text) : Text :=
  if reference.head? = some '/' then slashes reference else root.below (slashes reference)

/-- A reference that starts from the root and is spelled the way paths are. -/
def Neat (reference : Text) : Prop :=
  reference.head? ≠ some '/' ∧ (Path.ofText reference).text = reference

instance (reference : Text) : Decidable (Neat reference) :=
  inferInstanceAs (Decidable (_ ∧ _))

/-- A reference means a path below the root exactly if it is that path once it is cleaned. -/
theorem kind_resolveTarget_iff (hroot : root.Rooted) (hr : target.text = root.below relative)
    (hne : relative ≠ []) :
    (resolveTarget d root reference).kind = .file target.text ↔
      isRemote reference = false ∧ clean (spelling root reference) = target.text := by
  have hempty : root.text ≠ [] := by
    intro he
    simp [Path.Rooted, he] at hroot
  obtain ⟨kind, names, hk, hn, hp⟩ := hroot.exists_render
  unfold resolveTarget spelling
  by_cases hremote : isRemote reference = true
  · simp [hremote]
  rw [if_neg hremote]
  by_cases hhead : reference.head? = some '/'
  · simp only [if_pos hhead, TargetKind.file.injEq, hremote, true_and]
    rfl
  simp only [if_neg hhead, TargetKind.file.injEq, hremote, true_and]
  rcases Path.join_cases hempty reference with ⟨hjoin, hslash, hnone⟩ | hjoin
  · have hroot' : root.text ≠ target.text := by
      intro he
      have hlong := Path.length_below root relative
      have hpos := List.length_pos_iff.mpr hne
      rw [← hr, ← he] at hlong
      omega
    rw [hjoin, hr]
    exact iff_of_false (hr ▸ hroot') (Path.clean_below_ne hk hn hp hslash hnone hne)
  · rw [hjoin]

/-- A neat reference means a path only if it is the way down to it. -/
theorem Neat.eq_of_resolveTarget (hneat : Neat reference) (hroot : root.Rooted)
    (hr : target.text = root.below relative) (hne : relative ≠ [])
    (h : (resolveTarget d root reference).kind = .file target.text) : reference = relative := by
  obtain ⟨hhead, htext⟩ := hneat
  obtain ⟨kind, names, hk, hn, hp⟩ := hroot.exists_render
  have hslashes : slashes reference = reference :=
    Path.slashes_eq_self (htext ▸ (Path.ofText reference).not_mem_text)
  obtain ⟨-, hclean⟩ := (kind_resolveTarget_iff hroot hr hne).mp h
  rw [spelling, if_neg hhead, hslashes, hr] at hclean
  have hcomponents : componentsOf reference ≠ [] :=
    fun hnone => Path.clean_below_ne hk hn hp hhead hnone hne hclean
  have hjoin : Text.joinWith "/" (componentsOf reference) = reference :=
    Path.joinWith_componentsOf ((congrArg clean hslashes.symm).trans htext) hhead hcomponents
  have hplain : ∀ name ∈ componentsOf reference, Path.Plain name :=
    fun _ => Path.plain_of_mem_componentsOf
  have hstays := Path.clean_below_joinWith hk hn hp hplain hcomponents
  rw [hjoin] at hstays
  exact Path.below_injective (hstays.symm.trans hclean)

end Scan

namespace Migrations

open Scan (Neat spelling)

/-- A migrated target means the old one again exactly if it cleans to that path, which it never does
if it is neat. -/
theorem returns_resolveTarget_iff {mode : MigrationMode} {mappings : List Mapping} {m : Migrations}
    (hm : ofMappings mode mappings = .ok m) {root target : Path} (hroot : root.Rooted)
    {moved : Text} (h : m.resolveTarget root target.text = some moved) (d : Disk) :
    ((Scan.resolveTarget d root moved).kind = .file target.text ↔
        isRemote moved = false ∧ Path.clean (spelling root moved) = target.text) ∧
      (Neat moved → (Scan.resolveTarget d root moved).kind ≠ .file target.text) := by
  obtain ⟨relative, hrelative, hresolve⟩ := resolveTarget_eq_some h
  obtain ⟨source, destination, rest, hsource, rfl, rfl, hne⟩ := resolve_eq_some hresolve
  have hsourced := sourced_of_ofMappings hm source destination hsource
  have hrest : source ++ rest ≠ [] := by simp [hsourced]
  rw [Path.ofText_text] at hrelative
  obtain ⟨-, hnone⟩ | ⟨-, hbelow⟩ := Path.relativeTo?_eq_some hrelative
  · exact absurd hnone hrest
  · refine ⟨Scan.kind_resolveTarget_iff hroot hbelow hrest, fun hneat hreturns => ?_⟩
    exact hne (hneat.eq_of_resolveTarget hroot hbelow hrest hreturns)

/-- A file that moves to itself, since its new place is spelled with a dot. -/
theorem returns_resolveTarget_dot :
    let m : Migrations := ⟨.all, SortedMap.ofList [("b", "./b")]⟩
    let root := Path.ofText "/r"
    let target := Path.ofText "/r/b"
    ofMappings .all [⟨"b", "./b"⟩] = .ok m ∧ root.Rooted ∧
      m.resolveTarget root target.text = some "./b" ∧
      ∀ d, (Scan.resolveTarget d root "./b").kind = .file target.text := by
  intro m root target
  have hm : ofMappings .all [⟨"b", "./b"⟩] = .ok m := by decide
  have hroot : root.Rooted := by decide
  have h : m.resolveTarget root target.text = some "./b" := by decide
  refine ⟨hm, hroot, h, fun d => ?_⟩
  exact (returns_resolveTarget_iff hm hroot h d).1.mpr ⟨by decide, by decide⟩

end Migrations

end BlockSync
