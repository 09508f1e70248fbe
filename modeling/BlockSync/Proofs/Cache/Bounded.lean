import BlockSync.Proofs.Block.Account
import BlockSync.Proofs.Cache.Build
import BlockSync.Proofs.Cache.Problems
import BlockSync.Proofs.Cache.Saved
import BlockSync.Proofs.Disk.Landing
import BlockSync.Proofs.Tag.Syntax
import BlockSync.Proofs.Text.Line

/-! The numbers in a cache. They count the lines of a file and the bytes of a line, so if the sizes
of all files are numbers that a reader takes, then all of these are, too. -/

namespace BlockSync

open Json (InWord)

theorem Json.InWord.of_le {m n : Nat} (h : InWord n) (hle : m ≤ n) : InWord m :=
  Nat.lt_of_le_of_lt hle h

theorem TagSyntax.target_le {s : TagSyntax} {line : Text} {tag : Tag.Start}
    (h : s.classify line = .start tag) :
    tag.targetOffset + tag.target.byteLength ≤ line.byteLength ∧ 0 < tag.target.byteLength := by
  have hpos := Text.byteLength_pos (solid_target h).1
  obtain ⟨p, -, rfl, rfl⟩ := exists_fit h
  have hfront : p.tag.targetOffset = (p.lead ++ Tag.startKeyword ++ p.id ++
      (p.checksum.toList.flatMap Text.Piece.text ++ p.target.gap)).byteLength := by
    cases hc : p.checksum <;> simp [Tag.Parts.tag, hc]
  have hword : p.tag.target = p.target.word := rfl
  refine ⟨?_, hpos⟩
  rw [hfront, hword, p.text_eq, Text.byteLength_append _ (p.target.word ++ _), Text.byteLength_append
    p.target.word]
  omega

def Disk.Entry.size : Disk.Entry → Nat
  | .file bytes _ => bytes.length
  | .link _ => 0
  | .directory => 0

/-- The size of every file is a number that a reader takes. -/
def Disk.Sized (d : Disk) : Prop :=
  ∀ e ∈ d.entries.entries, InWord e.2.size

theorem Disk.Sized.of_find {d : Disk} (hd : d.Sized) {path : Text} {place : Place}
    {e : Disk.Entry} (h : d.find path = .ok (place, e)) : InWord e.size := by
  have he : d.entry? place = some e := entry?_of_find h
  by_cases hne : place = []
  · subst hne
    rw [← Option.some.inj he]
    decide
  · exact hd _ (mem_entries_of_entry hne he)

theorem Diagnostic.Bounded.onLine {n : Nat} (h : InWord n) (problem : Problem) (id : Option Text)
    (reason : Text) : (Diagnostic.onLine problem n id reason).Bounded where
  location := by
    rintro _ ⟨⟩
    exact ⟨h, by simp [Location.ofLine], by simp [Location.ofLine]⟩
  fix := by simp [Diagnostic.onLine]

theorem Diagnostic.Bounded.couldNotParse (reason : Text) :
    (Diagnostic.couldNotParse reason).Bounded where
  location := by simp [Diagnostic.couldNotParse]
  fix := by simp [Diagnostic.couldNotParse]

theorem FileInfo.Bounded.ofUnreadable {i : FileInfo} {reason : Text} (hm : i.markers = ∅)
    (hp : i.problems = [.couldNotParse reason]) (hl : i.lineCount = none) : i.Bounded where
  markers := by simp [hm]
  problems := by
    rw [hp, List.forall_mem_singleton]
    exact .couldNotParse reason
  lineCount := by simp [hl]

theorem FileInfo.Bounded.named {i : FileInfo} (h : i.Bounded) (readOnly : Bool)
    (aliases : List Text) : Bounded { i with readOnly, aliases } :=
  ⟨h.markers, h.problems, h.lineCount⟩

namespace Block

variable {s : TagSyntax} {resolve : Text → Resolved} {lines : List Text}

theorem bounded_of_mem_declarationProblems {block : Opened} {line : Nat} {tag : Tag.Start}
    {declaration : Text} {resolved : Resolved} (hline : InWord line)
    (hoffset : InWord (tag.targetOffset + tag.target.byteLength))
    (hpos : 0 < tag.target.byteLength) {x : Diagnostic}
    (h : x ∈ declarationProblems block line tag declaration resolved) : x.Bounded := by
  have hspan : Location.Bounded ⟨line, some (tag.targetOffset + 1),
      some (tag.targetOffset + tag.target.byteLength)⟩ := by
    refine ⟨hline, ?_, ?_⟩
    · rintro _ ⟨⟩
      exact hoffset.of_le (by omega)
    · rintro _ ⟨⟩
      exact hoffset
  simp only [declarationProblems, List.mem_append] at h
  rcases h with ((h | h) | h) | h <;> split at h
  · obtain rfl := List.mem_singleton.mp h
    exact ⟨by rintro _ ⟨⟩; exact hspan, by simp [Diagnostic.fileDoesNotExist]⟩
  · simp at h
  · obtain rfl := List.mem_singleton.mp h
    exact ⟨by rintro _ ⟨⟩; exact hspan, by rintro _ ⟨⟩; exact hline⟩
  · simp at h
  · obtain rfl := List.mem_singleton.mp h
    exact .onLine hline ..
  · simp at h
  · obtain rfl := List.mem_singleton.mp h
    exact .onLine hline ..
  · simp at h

theorem byteLength_le_of_ofRaw (raw : Text) : (Line.ofRaw raw).text.byteLength ≤ raw.byteLength := by
  conv_rhs => rw [← Line.raw_ofRaw raw, Line.raw, Text.byteLength_append]
  omega

theorem bounded_of_mem_feed {state : State} {raw : Text} (hline : InWord (state.line + 1))
    (hraw : InWord raw.byteLength) {x : Diagnostic}
    (h : Event.problem x ∈ (feed s resolve state raw).2) : x.Bounded := by
  rcases problem_of_feed h with ⟨tag, hr, hx⟩ | ⟨id, rfl⟩ | ⟨fault, rfl | rfl⟩
  · obtain ⟨hle, hpos⟩ := TagSyntax.target_le hr
    exact bounded_of_mem_declarationProblems hline
      (hraw.of_le (hle.trans (byteLength_le_of_ofRaw raw))) hpos hx
  all_goals exact .onLine hline ..

/-- All numbers that reading a file finds are within its lines. -/
theorem bounded_of_mem_events (hlines : InWord lines.length)
    (hbytes : ∀ raw ∈ lines, InWord raw.byteLength) {x : Diagnostic}
    (h : Event.problem x ∈ events s resolve lines) : x.Bounded := by
  have hd : Describes s resolve lines (feedAll s resolve .initial lines).1 :=
    Describes.initial.feedAll lines
  rcases List.mem_append.mp h with h | h
  · obtain ⟨pre, raw, post, rfl, hfeed⟩ := mem_feedAll.mp h
    have hline : (feedAll s resolve .initial pre).1.line = pre.length :=
      (Describes.initial.feedAll pre).line_eq
    refine bounded_of_mem_feed ?_ (hbytes raw (by simp)) hfeed
    rw [hline]
    exact hlines.of_le (by simp)
  · obtain ⟨id, first, i, -, -, hi, he⟩ := hd.mem_finish_iff.mp h
    obtain rfl := Event.problem.inj he
    exact .onLine (hlines.of_le hi.lt) ..

theorem keys_of_mem_events (hlines : InWord lines.length) {b : Block}
    (hb : b ∈ completed (events s resolve lines)) {n : Nat} (hn : n ∈ b.targets.keys) :
    InWord n := by
  obtain ⟨t, ht⟩ := SortedMap.contains_iff.mp (SortedMap.mem_keys_iff.mp hn)
  obtain ⟨i, raw, tag, rfl, hi, -⟩ := exists_start_of_mem_events hb ht
  exact hlines.of_le (List.getElem?_eq_some_iff.mp hi).1

end Block

namespace Scan

open Block (Event completed mem_completed)

variable {d : Disk} {at_ : Setting}

theorem bounded_of_mem_blockProblems {again : Bool} {b : Block}
    (hb : ∀ n ∈ b.targets.keys, InWord n) {x : Diagnostic}
    (h : x ∈ blockProblems d at_ again b) : x.Bounded := by
  obtain ⟨hne, h | ⟨-, rfl⟩ | ⟨-, rfl⟩⟩ := mem_blockProblems.mp h
  · obtain ⟨e, he, text, -, -, rfl⟩ := mem_selfTargets.mp h
    exact .onLine (hb _ (List.mem_map_of_mem he)) ..
  · exact .onLine (hb _ (Block.firstLine_mem hne)) ..
  · exact .onLine (hb _ (Block.firstLine_mem hne)) ..

theorem bounded_of_lines {o : Options} {path : Path} {lines : List Line}
    (hl : d.lines path = .ok (lines, none)) (hlines : InWord lines.length)
    (hbytes : ∀ line ∈ lines, InWord line.raw.byteLength) (readOnly : Bool) :
    (scan d o path readOnly).info.Bounded := by
  have hcount : InWord (lines.map Line.raw).length := by rwa [List.length_map]
  rw [scan_info_of_lines hl]
  refine ⟨fun e he => ?_, fun x hx => ?_, ?_⟩
  · obtain ⟨b, hb, hm⟩ := Option.map_eq_some_iff.mp
      ((find?_markersOf _ _ _).symm.trans (SortedMap.mem_entries_iff.mp he))
    intro t ht
    rw [← hm] at ht
    exact Block.keys_of_mem_events hcount (mem_of_kept? hb).1 (List.mem_map_of_mem ht)
  · rcases mem_problemsOf.mp hx with hx | ⟨pre, b, post, he, hx⟩
    · refine Block.bounded_of_mem_events hcount (fun raw hraw => ?_) hx
      obtain ⟨line, hline, rfl⟩ := List.mem_map.mp hraw
      exact hbytes line hline
    · have hb : b ∈ completed (eventsOf d o path lines) :=
        mem_completed.mpr (he ▸ by simp)
      exact bounded_of_mem_blockProblems (fun n hn => Block.keys_of_mem_events hcount hb hn) hx
  · rintro _ ⟨⟩
    exact hlines

theorem bounded_scan (hd : d.Sized) (o : Options) (path : Path) (readOnly : Bool) :
    (scan d o path readOnly).info.Bounded := by
  rcases h : d.lines path with cause | ⟨lines, cause | cause⟩
  · rw [scan, h]
    exact .ofUnreadable rfl rfl rfl
  · obtain ⟨place, bytes, mode, hf, hlength⟩ := Disk.exists_byteLength_of_lines h
    have hbytes : InWord (Text.byteLength (lines.flatMap Line.raw)) := hlength ▸ hd.of_find hf
    exact bounded_of_lines h
      (hbytes.of_le (Line.length_le_byteLength (Disk.cut_of_lines h).2))
      (fun line hm => hbytes.of_le (Line.byteLength_raw_le hm)) readOnly
  · rw [scan, h]
    exact .ofUnreadable rfl rfl rfl

end Scan

namespace Cache

variable {d : Disk} {o : Options} {c : Cache}

theorem Bounded.insert (h : c.Bounded) {info : FileInfo} (hi : info.Bounded) (key : Text) :
    Bounded (SortedMap.insert c key info) := fun e he => by
  rcases SortedMap.mem_place he with rfl | he
  · exact hi
  · exact h e he

theorem Bounded.learned (h : c.Bounded) (canonical : Text) (aliases : List Text) :
    Bounded (SortedMap.map c fun key info =>
      if key = canonical ∨ key ∈ aliases then { info with aliases } else info) := fun e he => by
  obtain ⟨⟨key, info⟩, hk, rfl⟩ := List.mem_map.mp he
  have hinfo : info.Bounded := h _ hk
  dsimp only
  split
  next => exact hinfo.named ..
  next => exact hinfo

theorem Bounded.addAlias (h : c.Bounded) (canonical name : Text) :
    (c.addAlias canonical name).Bounded := by
  unfold Cache.addAlias
  split
  next => exact h
  next =>
    split
    next => exact h
    next entry he =>
      have hentry : entry.Bounded := h _ (SortedMap.mem_entries_iff.mpr he)
      exact (h.learned canonical _).insert (hentry.named ..) name

theorem Bounded.visit (hd : d.Sized) {s : Cache × List Path} (h : s.1.Bounded) (readOnly : Bool)
    (p : Path) : (visit d o readOnly s p).1.Bounded := by
  cases hp : d.canonical p with
  | error cause =>
    rw [visit_of_error hp]
    dsimp only
    split
    next => exact h
    next => exact h.insert (.ofUnreadable rfl rfl rfl) _
  | ok q =>
    have hscan : (withScan d o readOnly s.1 q).Bounded := by
      unfold withScan
      split
      next => exact h
      next => exact h.insert (Scan.bounded_scan hd o q readOnly) _
    rw [visit_of_ok hp]
    dsimp only
    split
    next => exact hscan
    next => exact hscan.addAlias _ _

theorem Bounded.foldl_visit (hd : d.Sized) {s : Cache × List Path} (h : s.1.Bounded)
    (readOnly : Bool) (files : List Path) :
    (files.foldl (Cache.visit d o readOnly) s).1.Bounded := by
  induction files generalizing s with
  | nil => exact h
  | cons p files ih => exact ih (h.visit hd readOnly p)

/-- All numbers in the cache of a disk are such as a reader takes. -/
theorem bounded_build (hd : d.Sized) (o : Options) (files : List Path) :
    (build d o files).Bounded := by
  have hempty : Bounded ∅ := fun e he => by simp [SortedMap.entries_empty] at he
  have hrequested := Bounded.foldl_visit (o := o) (s := (∅, [])) hd hempty false files
  exact Bounded.foldl_visit (s := (_, [])) hd hrequested true _

end Cache

end BlockSync
