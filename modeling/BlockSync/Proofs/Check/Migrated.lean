import BlockSync.Proofs.Cache.Origin
import BlockSync.Proofs.Check.Findings
import BlockSync.Proofs.Checksum
import BlockSync.Proofs.Migration
import BlockSync.Proofs.Tag.Render

/-! The repair of a declaration whose target has moved. It replaces the line that declares, and what
it writes is read back as it was meant unless the new target cannot stand in a tag. -/

namespace BlockSync

namespace TagSyntax

open Text (Solid)

/-- What is written is one line, and a declaration like the tag but for this target and checksum. -/
structure Redeclares (s : TagSyntax) (tag : Tag.Start) (target checksum written : Text) : Prop where
  newline : '\n' ∉ written
  start : ∃ tag', s.classify written = .start tag' ∧ tag'.id = tag.id ∧ tag'.lead = tag.lead ∧
    tag'.comment = tag.comment ∧ tag'.trail = tag.trail ∧ tag'.commentEnd = tag.commentEnd ∧
    tag'.target = target ∧ tag'.checksum = some checksum

theorem redeclares_render_iff {s : TagSyntax} (hs : s.Plain) {line : Text} {tag : Tag.Start}
    (h : s.classify line = .start tag) (hn : '\n' ∉ line) {target checksum : Text}
    (hne : checksum ≠ []) (hc : Solid checksum) :
    s.Redeclares tag target checksum (tag.render checksum target) ↔
      target ≠ [] ∧ Solid target ∧ ¬ tag.Mistakes checksum target := by
  constructor
  · rintro ⟨-, tag', hr, -, -, -, -, hclosing, ht', -⟩
    obtain ⟨ht, hsolid⟩ := ht' ▸ solid_target hr
    refine ⟨ht, hsolid, fun hm => ?_⟩
    rw [classify_render_of_mistakes hs h hc ht hsolid hm] at hr
    rw [← Tag.Line.start.inj hr, hm.1] at hclosing
    exact Option.some_ne_none target hclosing
  · rintro ⟨ht, hsolid, hm⟩
    refine ⟨fun hnew => ?_, _, classify_render_of_not_mistakes hs h hc ht hsolid hm, rfl, rfl, rfl,
      rfl, rfl, rfl, if_neg hne⟩
    have hblank : ∀ t : Text, Solid t → '\n' ∉ t := fun t hsolid hm => by
      simpa [Text.isBlank] using hsolid _ hm
    rcases mem_render h hnew with hm | hm | hm | hm
    · exact hn hm
    · exact hblank _ hc hm
    · exact hblank _ hsolid hm
    · simp at hm

end TagSyntax

namespace Check

open Cache (build resolverOf)
open Text (Solid)

variable {d : Disk} {o : Options} {files : List Path}

/-- A line of a file that can be read declares a target that has moved. -/
structure Moves (d : Disk) (o : Options) (path : Path) (number : Nat) (line : Text) (tag : Tag.Start)
    (moved : Text) : Prop where
  stands : ∃ lines i found, d.lines path = .ok (lines, none) ∧ number = i + 1 ∧
    lines[i]? = some found ∧ found.text = line
  start : o.tagSyntax.classify line = .start tag
  target : ∃ name, (resolverOf d o path tag.target).kind = .file name ∧
    o.migrations.resolveTarget (Scan.findRoot d path o.rootMarker) name = some moved

theorem checkDeclaration_eq_pendingMigration {cache : Cache} {info : FileInfo} {y : Declaration}
    {x : Diagnostic} (h : checkDeclaration o cache info y = some x)
    (hx : x.problem = .pendingMigration) :
    ∃ name moved, y.target.kind = .file name ∧
      o.migrations.resolveTarget (.ofText info.root) name = some moved ∧
      x = pendingMigration o.tagSyntax y moved := by
  have hchecksum : ∀ {expected}, checkChecksum o.tagSyntax y expected ≠ some x := by
    intro expected h
    obtain ⟨-, rfl⟩ := checkChecksum_eq_some.mp h
    simp [mismatchedChecksum] at hx
  unfold checkDeclaration checkFileTarget at h
  split at h
  next name hkind =>
    split at h
    next moved hmoved =>
      refine ⟨name, moved, hkind, hmoved, ?_⟩
      split at h
      next => exact (Option.some.inj h).symm
      next =>
        split at h
        next => exact absurd h hchecksum
        next => exact (Option.some.inj h).symm
    next =>
      split at h
      next => exact absurd h hchecksum
      next =>
        obtain rfl := Option.some.inj h
        simp [noReturnTag, Diagnostic.onLine] at hx
  next => exact absurd h hchecksum

theorem pendingMigration_redeclares_iff (ho : o.Valid) {r : FileReport}
    (hr : r ∈ check o (build d o files)) {x : Diagnostic} (hx : x ∈ r.diagnostics)
    (hp : x.problem = .pendingMigration) :
    ∃ q number line tag moved info marker written description,
      r.path = q.text ∧ Moves d o q number line tag moved ∧
      (build d o files).find? r.path = some info ∧ info.markers.find? tag.id = some marker ∧
      x.id = some tag.id ∧ x.line? = some number ∧
      x.fix = some (.replace number written description line) ∧
      (o.tagSyntax.Redeclares tag moved marker.selfChecksum written ↔
        moved ≠ [] ∧ Solid moved ∧ ¬ tag.Mistakes marker.selfChecksum moved) := by
  obtain ⟨info, hk, hw, hr⟩ := mem_check.mp hr
  rw [hr] at hx
  rcases mem_checkFile.mp hx with ⟨hparsed, -⟩ | ⟨y, ⟨hmarker, htarget⟩, hy⟩
  · have := Cache.isParsed_build hk hparsed
    simp [hp, Problem.isParsed] at this
  · obtain ⟨name, moved, hkind, hmoved, rfl⟩ := checkDeclaration_eq_pendingMigration hy hp
    obtain ⟨q, lines, hq, hrecords, hroot⟩ :=
      (Cache.traced_build d o files r.path info hk).exists_records hmarker
    obtain ⟨i, line, tag, hn, hline, hstart, hid, ht⟩ := hrecords.exists_start hmarker htarget
    have hmem := List.mem_of_getElem? hline
    have hdeclaration : y.target.declaration = line.text := by
      rw [ht, Block.targetOf, Disk.ofRaw_raw_of_lines hrecords.lines_eq hmem]
    have hnewline : '\n' ∉ line.text := ((Disk.cut_of_lines hrecords.lines_eq).2 line hmem).newline
    obtain ⟨b, -, hb⟩ := Option.map_eq_some_iff.mp ((hrecords.find?_markers y.id).symm.trans hmarker)
    obtain ⟨hne, hsolid⟩ : y.marker.selfChecksum ≠ [] ∧ Solid y.marker.selfChecksum := by
      rw [← hb]
      exact Checksum.number_ofNat _
    have hmoves : Moves d o q y.line line.text tag moved := by
      refine ⟨⟨lines, i, line, hrecords.lines_eq, hn, hline, rfl⟩, hstart, name, ?_, ?_⟩
      · rw [← hkind, ht]
        rfl
      · rw [← hmoved, hroot, Path.ofText_text]
    have hfix : ∃ description, (pendingMigration o.tagSyntax y moved).fix =
        some (.replace y.line (tag.render y.marker.selfChecksum moved) description line.text) := by
      rw [pendingMigration, hdeclaration, TagSyntax.withTarget?_of_start hstart]
      exact ⟨_, rfl⟩
    obtain ⟨description, hfix⟩ := hfix
    exact ⟨q, y.line, line.text, tag, moved, info, y.marker, _, description, (hq hw).symm, hmoves, hk,
      hid ▸ hmarker, hid ▸ rfl, rfl, hfix,
      TagSyntax.redeclares_render_iff (Options.plain_of_valid ho) hstart hnewline hne hsolid⟩

/-- A file whose target moves to a place with a blank in its name. -/
def movedDisk : Disk :=
  Disk.bare.set ["a"] (.file (Text.Utf8.encode "# sync-start:m b\nx\n# sync-end:m\n") 0o644#12)

def moving : Options :=
  { Options.standard with migrations := ⟨.missing, .ofList [("b", "new b")]⟩ }

theorem moving_valid : moving.Valid :=
  ⟨{ Config.empty with migration? := some (.missing, [⟨"b", "new b"⟩]) }, by rfl⟩

theorem pendingMigration_not_redeclares_movedDisk :
    ∃ r ∈ check moving (build movedDisk moving [.ofText "/a"]), ∃ x ∈ r.diagnostics,
      x.problem = .pendingMigration ∧
      ∃ q number line tag moved marker written description,
        Moves movedDisk moving q number line tag moved ∧
        x.fix = some (.replace number written description line) ∧
        ¬ moving.tagSyntax.Redeclares tag moved (Marker.selfChecksum marker) written := by
  have hany : (build movedDisk moving [.ofText "/a"]).writable.any (fun e =>
      let found := (declarations e.2).filterMap (checkDeclaration moving
        (build movedDisk moving [.ofText "/a"]) e.2)
      found.any (·.problem == .pendingMigration)) = true := by
    decide +kernel
  obtain ⟨e, he, hfound⟩ := List.any_eq_true.mp hany
  obtain ⟨x, hx, hp⟩ := List.any_eq_true.mp hfound
  have hr : ⟨e.1, checkFile moving _ e.2⟩ ∈ check moving (build movedDisk moving [.ofText "/a"]) :=
    List.mem_map_of_mem he
  have hx' : x ∈ checkFile moving (build movedDisk moving [.ofText "/a"]) e.2 :=
    checkFile_perm.mem_iff.mpr (List.mem_append_right _ hx)
  obtain ⟨q, number, line, tag, moved, info, marker, written, description, -, hmoves, -, -, -, -,
    hfix, hiff⟩ := pendingMigration_redeclares_iff moving_valid hr hx' (beq_iff_eq.mp hp)
  refine ⟨_, hr, x, hx', beq_iff_eq.mp hp, q, number, line, tag, moved, marker, written, description,
    hmoves, hfix, fun hredeclares => ?_⟩
  obtain ⟨name, -, hmoved⟩ := hmoves.target
  obtain ⟨relative, -, hresolve⟩ := Migrations.resolveTarget_eq_some hmoved
  obtain ⟨source, destination, rest, hsource, -, rfl, -⟩ := Migrations.resolve_eq_some hresolve
  have hdestination : destination = "new b" := by
    have hmem := SortedMap.mem_entries_iff.mpr hsource
    simpa using (Prod.mk.inj (List.mem_singleton.mp hmem)).2
  have hsolid := (hiff.mp hredeclares).2.1 ' ' (by simp [hdestination])
  exact absurd hsolid (by decide)

end Check

end BlockSync
