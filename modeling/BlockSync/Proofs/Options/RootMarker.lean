import BlockSync.Proofs.Options
import BlockSync.Proofs.Path.Upward

/-! Root markers that options have. They are not empty and have no slash in them, but this alone does
not make them names: a marker of dots only is the directory itself, and a backslash is a slash to a
path. -/

namespace BlockSync.Options

open BlockSync.Path (NamesChild Plain slashes)

variable {config : Config} {o : Options} {dir : Path} {marker : Text}

theorem rootMarkerFault?_eq_none_iff :
    rootMarkerFault? marker = none ↔ marker ≠ [] ∧ '/' ∉ marker := by
  rw [rootMarkerFault?, ite_eq_right_iff, ← not_or]
  simp

/-- A sound marker is a plain name unless it is one or two dots. -/
theorem plain_iff_of_rootMarkerFault? (h : rootMarkerFault? marker = none) :
    Plain marker ↔ marker ≠ "." ∧ marker ≠ ".." := by
  obtain ⟨hne, hslash⟩ := rootMarkerFault?_eq_none_iff.mp h
  exact ⟨fun hn => ⟨hn.2.1, hn.2.2.1⟩, fun hdots => ⟨hne, hdots.1, hdots.2, hslash⟩⟩

theorem join_of_dots (h : marker = "." ∨ marker = "..") (dir : Path) : dir.join marker = dir := by
  refine Path.join_of_clean ?_
  rcases h with rfl | rfl
  · decide
  · decide

/-- A marker is joined as if it were written with slashes. -/
theorem join_slashes (dir : Path) (marker : Text) : dir.join (slashes marker) = dir.join marker := by
  have hslashes : slashes (slashes marker) = slashes marker :=
    Path.slashes_eq_self (Path.not_mem_slashes marker)
  rw [Path.join, Path.join, hslashes]

theorem mem_slashes (h : '\\' ∈ marker) : '/' ∈ slashes marker :=
  List.mem_map.mpr ⟨'\\', h, if_pos rfl⟩

/-- The root marker is looked for as an entry of each directory exactly if it is not one or two dots
and has no backslash; dots are looked for as the directory itself, and a backslash leads to what a
marker with a slash would lead to, which no options have. -/
theorem namesChild_rootMarker_iff (ho : ofConfig config = .ok o) (hd : dir.Rooted) :
    o.rootMarker = config.rootMarker?.getD defaultRootMarker ∧
      (NamesChild dir o.rootMarker ↔
        ((o.rootMarker ≠ "." ∧ o.rootMarker ≠ "..") ∧ '\\' ∉ o.rootMarker) ∧ dir.text ≠ "//") ∧
      (o.rootMarker = "." ∨ o.rootMarker = ".." → dir.join o.rootMarker = dir) ∧
      ('\\' ∈ o.rootMarker → dir.join o.rootMarker = dir.join (slashes o.rootMarker) ∧
        rootMarkerFault? (slashes o.rootMarker) = some (.badRootMarker (slashes o.rootMarker))) := by
  have hfills := fills_of_ofConfig ho
  refine ⟨hfills.rootMarker, ?_, fun h => join_of_dots h dir, fun h => ⟨?_, ?_⟩⟩
  · rw [Path.namesChild_iff hd, plain_iff_of_rootMarkerFault? hfills.rootMarkerFault?]
  · exact (join_slashes dir o.rootMarker).symm
  · exact if_pos (.inr (mem_slashes h))

/-- Two markers that options have: the one is the directory itself, and the other lies two levels below
it. -/
theorem namesChild_rootMarker_strays :
    let dir := Path.ofText "/repo"
    let upper : Options := { standard with rootMarker := ".." }
    let lower : Options := { standard with rootMarker := "a\\b" }
    (dir.Rooted ∧ ofConfig { Config.empty with rootMarker? := some ".." } = .ok upper ∧
        ¬NamesChild dir upper.rootMarker ∧ dir.join upper.rootMarker = dir) ∧
      ofConfig { Config.empty with rootMarker? := some "a\\b" } = .ok lower ∧
        ¬NamesChild dir lower.rootMarker ∧ dir.join lower.rootMarker = .ofText "/repo/a/b" := by
  intro dir upper lower
  have hd : dir.Rooted := by decide
  have hupper : ofConfig { Config.empty with rootMarker? := some ".." } = .ok upper := rfl
  have hlower : ofConfig { Config.empty with rootMarker? := some "a\\b" } = .ok lower := rfl
  obtain ⟨-, hiff, hdots, -⟩ := namesChild_rootMarker_iff hupper hd
  obtain ⟨-, hiff', -, hslashes⟩ := namesChild_rootMarker_iff hlower hd
  refine ⟨⟨hd, hupper, fun h => ?_, hdots (.inr rfl)⟩, hlower, fun h => ?_, ?_⟩
  · exact (hiff.mp h).1.1.2 rfl
  · exact (hiff'.mp h).1.2 (by decide)
  · rw [(hslashes (by decide)).1]
    decide

end BlockSync.Options
