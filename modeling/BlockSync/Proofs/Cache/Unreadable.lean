import BlockSync.Proofs.Cache.Problems
import BlockSync.Proofs.Text.Reading

/-! Files that are no text. A file that cannot be read as a whole cannot be read by lines either, and
then its record says that and nothing else, however many of its lines were good. -/

namespace BlockSync

namespace Disk

variable {d : Disk} {p : Path}

/-- The lines of a file end in a fault, or are not there, exactly if there is no text of it. -/
theorem exists_lines_iff_exists_text :
    (∃ lines, d.lines p = .ok (lines, none)) ↔ ∃ text, d.text p = .ok text := by
  unfold Disk.lines Disk.text
  rcases d.find p.text with cause | ⟨place, ⟨bytes, mode⟩ | target | _⟩
  case ok.file =>
    have hread : (Line.read bytes).fault = none ↔ ∃ text, Text.Utf8.decode bytes = .ok text := by
      rw [Line.fault_read_eq_none_iff, Line.isText_iff]
    cases hd : Text.Utf8.decode bytes with
    | ok text =>
      have hnone := hread.mpr ⟨text, hd⟩
      simp [hnone, hd]
    | error fault =>
      have hsome : (Line.read bytes).fault ≠ none := fun hnone => by
        obtain ⟨text, ht⟩ := hread.mp hnone
        simp [hd] at ht
      simp [hsome, hd]
  all_goals simp

end Disk

namespace Scan

variable {d : Disk} {o : Options} {path : Path} {readOnly : Bool}

/-- The record says that the file could not be read to its end, and nothing else. -/
structure Discarded (path : Path) (s : Scanned) : Prop where
  problems : ∃ reason, s.info.problems =
    [.couldNotParse ("Could not parse '" ++ path.text ++ "': " ++ reason)]
  markers : s.info.markers = ∅
  referenced : s.referenced = []
  lineCount : s.info.lineCount = none

theorem discarded_unreadable (path root : Path) (readOnly : Bool) (reason : Text) :
    Discarded path (unreadable path root readOnly reason) :=
  ⟨⟨reason, rfl⟩, rfl, rfl, rfl⟩

theorem discarded_scan (h : ¬∃ lines, d.lines path = .ok (lines, none)) :
    Discarded path (scan d o path readOnly) := by
  rcases hl : d.lines path with cause | ⟨lines, _ | cause⟩
  · simp only [scan, hl]
    exact discarded_unreadable ..
  · exact absurd ⟨lines, hl⟩ h
  · simp only [scan, hl]
    exact discarded_unreadable ..

/-- What was read to its end is never said to be unreadable. -/
theorem problem_ne_of_lines {lines : List Line} (h : d.lines path = .ok (lines, none))
    {x : Diagnostic} (hx : x ∈ (scan d o path readOnly).info.problems) :
    x.problem ≠ .couldNotParse := by
  intro he
  simp only [scan_info_of_lines h] at hx
  rcases mem_problemsOf.mp hx with hx | ⟨pre, b, post, -, hx⟩
  · have htagged := Block.isTagged_events hx
    rw [he] at htagged
    exact Bool.false_ne_true htagged
  · have hnoted := isNoted_blockProblems hx
    rw [he] at hnoted
    exact Bool.false_ne_true hnoted

/-- A record says that a file could not be read exactly if the file has no text as a whole, and then
it says nothing else. -/
structure Agrees (d : Disk) (path : Path) (s : Scanned) : Prop where
  couldNotParse_iff : (∃ x ∈ s.info.problems, x.problem = .couldNotParse) ↔
    ∃ cause, d.text path = .error cause
  discarded : (∃ cause, d.text path = .error cause) → Discarded path s

theorem agrees_scan (d : Disk) (o : Options) (path : Path) (readOnly : Bool) :
    Agrees d path (scan d o path readOnly) := by
  have hlines : (∃ cause, d.text path = .error cause) ↔ ¬∃ lines, d.lines path = .ok (lines, none) := by
    rw [Disk.exists_lines_iff_exists_text]
    cases d.text path with
    | error cause => simp
    | ok text => simp
  constructor
  case couldNotParse_iff =>
    rw [hlines]
    constructor
    · rintro ⟨x, hx, he⟩ ⟨lines, hl⟩
      exact problem_ne_of_lines hl hx he
    · intro hno
      have hdiscarded : Discarded path (scan d o path readOnly) := discarded_scan hno
      obtain ⟨reason, hproblems⟩ := hdiscarded.problems
      exact ⟨_, by rw [hproblems]; exact List.mem_singleton_self _, rfl⟩
  case discarded =>
    exact fun h => discarded_scan (hlines.mp h)

/-- Reading by lines loses nothing and agrees with reading as a whole, and a scan of any path keeps
nothing of a file that cannot be read as a whole. -/
theorem restores_and_agrees (bytes : Text.Utf8.Bytes) (d : Disk) (o : Options) (path : Path)
    (readOnly : Bool) : Line.Restores bytes ∧ Agrees d path (scan d o path readOnly) :=
  ⟨Line.restores_read bytes, agrees_scan d o path readOnly⟩

end Scan

end BlockSync
