import BlockSync.Proofs.Text.Line

/-! What reading bytes line by line comes to. Bytes that are a text come back as its lines, and nothing
is lost. Other bytes have a first line that is no text by itself, and of these exactly the complete
lines before it are read. No byte of a longer character is a newline, so that no character is cut. -/

namespace BlockSync.Line

open Text.Utf8 (Bytes Fault encode decode)

variable {bytes bad : Bytes} {pieces front rest : List Bytes} {lines : List Line} {line : Line}
  {fault : Fault}

/-- The bytes are those of a text. -/
def IsText (bytes : Bytes) : Prop :=
  ∃ t, bytes = encode t

/-- No newline but in the terminators, and only the last line may lack one. -/
structure Terminated (lines : List Line) : Prop where
  newline : ∀ line ∈ lines, '\n' ∉ line.text
  terminator : ∀ line ∈ lines,
    line.terminator = [] ∨ line.terminator = "\n" ∨ line.terminator = "\r\n"
  inner : ∀ line ∈ lines.dropLast, line.terminator ≠ []

/-- Behind the lines, all of them complete, come the bytes of one more line that are no text. -/
structure Stops (bytes : Bytes) (lines : List Line) (fault : Fault) : Prop where
  terminated : Terminated lines
  complete : ∀ line ∈ lines, line.terminator ≠ []
  exists_bad : ∃ bad rest, bytes = encode (lines.flatMap raw) ++ (bad ++ rest) ∧ IsChunk bad ∧
    ((10 : UInt8) ∉ bad → rest = []) ∧ ¬IsText bad ∧ decode bad = .error fault

theorem terminator_ofRaw (raw : Text) : (ofRaw raw).terminator = [] ∨
    (ofRaw raw).terminator = "\n" ∨ (ofRaw raw).terminator = "\r\n" := by
  unfold ofRaw
  split
  next =>
    split
    next => exact .inr (.inr rfl)
    next => exact .inr (.inl rfl)
  next => exact .inl rfl

theorem Whole.terminator_cases (h : Whole line) :
    line.terminator = [] ∨ line.terminator = "\n" ∨ line.terminator = "\r\n" := by
  rw [← h.ofRaw_raw]
  exact terminator_ofRaw _

theorem Cut.terminated (h : Cut lines) : Terminated lines := by
  refine ⟨fun line hl => (h.2 line hl).newline, fun line hl => (h.2 line hl).terminator_cases, ?_⟩
  rcases List.eq_nil_or_concat lines with rfl | ⟨init, last, rfl⟩
  · simp
  · rw [List.concat_eq_append] at h ⊢
    rw [List.dropLast_concat]
    exact fun line hl => (List.pairwise_append.mp h.1).2.2 line hl last (by simp)

theorem isText_iff : IsText bytes ↔ ∃ t, decode bytes = .ok t := by
  simp only [IsText, Text.Utf8.decode_eq_ok]

theorem not_isText_iff : ¬IsText bytes ↔ ∃ fault, decode bytes = .error fault := by
  rw [isText_iff]
  cases decode bytes with
  | error fault => simp
  | ok t => simp

/-- Where reading pieces stops, the pieces before were read and the next one is no text. -/
theorem exists_bad_of_readChunks (h : readChunks pieces = ⟨lines, some fault⟩) :
    ∃ front bad rest, pieces = front ++ bad :: rest ∧ readChunks front = ⟨lines, none⟩ ∧
      decode bad = .error fault := by
  induction pieces generalizing lines with
  | nil => simp [readChunks] at h
  | cons piece more ih =>
    rw [readChunks] at h
    cases hd : decode piece with
    | error fault' =>
      simp only [hd, Reading.mk.injEq, Option.some.injEq] at h
      obtain ⟨rfl, rfl⟩ := h
      exact ⟨[], piece, more, rfl, rfl, hd⟩
    | ok t =>
      simp only [hd, Reading.mk.injEq] at h
      obtain ⟨rfl, hfault⟩ := h
      have hmore : readChunks more = ⟨(readChunks more).lines, some fault⟩ := by rw [← hfault]
      obtain ⟨front, bad, rest, rfl, hfront, hbad⟩ := ih hmore
      refine ⟨piece :: front, bad, rest, rfl, ?_, hbad⟩
      rw [readChunks, hd, hfront]

/-- Pieces with a newline are read as lines with a terminator. -/
theorem terminator_ne_nil_of_readChunks
    (h : ∀ piece ∈ pieces, IsChunk piece ∧ (10 : UInt8) ∈ piece) :
    ∀ line ∈ (readChunks pieces).lines, line.terminator ≠ [] := by
  induction pieces with
  | nil => simp [readChunks]
  | cons piece more ih =>
    have hrest := ih fun p hp => h p (List.mem_cons_of_mem _ hp)
    rw [readChunks]
    cases hd : decode piece with
    | error fault => simp
    | ok t =>
      obtain ⟨hchunk, hnewline⟩ := h piece (by simp)
      intro line hl
      rcases List.mem_cons.mp hl with rfl | hl
      · exact (hchunk.whole hd).2 hnewline
      · exact hrest line hl

theorem stops_of_read (h : read bytes = ⟨lines, some fault⟩) : Stops bytes lines fault := by
  have hcut := cut_read bytes
  obtain ⟨front, bad, rest, hpieces, hfront, hbad⟩ := exists_bad_of_readChunks h
  obtain ⟨hpairs, hchunks⟩ := isChunk_chunks bytes
  rw [hpieces] at hpairs hchunks
  obtain ⟨-, hbehind, hbefore⟩ := List.pairwise_append.mp hpairs
  have hnewline : ∀ piece ∈ front, IsChunk piece ∧ (10 : UInt8) ∈ piece :=
    fun piece hp => ⟨hchunks piece (by simp [hp]), hbefore piece hp bad (by simp)⟩
  have hcomplete := terminator_ne_nil_of_readChunks hnewline
  have hflat := flatten_chunks bytes
  rw [hpieces, List.flatten_append, List.flatten_cons, ← encode_of_readChunks hfront] at hflat
  rw [h] at hcut
  rw [hfront] at hcomplete
  refine ⟨hcut.terminated, hcomplete, bad, rest.flatten, hflat.symm, hchunks bad (by simp), ?_,
    not_isText_iff.mpr ⟨fault, hbad⟩, hbad⟩
  intro hlast
  cases rest with
  | nil => rfl
  | cons other rest => exact absurd ((List.pairwise_cons.mp hbehind).1 other (by simp)) hlast

/-- Lines are read to the end exactly if all bytes together are a text. -/
theorem fault_read_eq_none_iff : (read bytes).fault = none ↔ IsText bytes := by
  constructor
  · intro h
    have hread : read bytes = ⟨(read bytes).lines, none⟩ := by rw [← h]
    exact ⟨_, (encode_of_read hread).symm⟩
  · intro h
    obtain ⟨t, ht⟩ := isText_iff.mp h
    obtain ⟨lines, hread, -⟩ := read_of_decode ht
    rw [hread]

/-- What reading by lines promises for bytes that are a text and for bytes that are none. -/
structure Restores (bytes : Bytes) : Prop where
  whole : IsText bytes → ∃ lines, read bytes = ⟨lines, none⟩ ∧ Terminated lines ∧
    encode (lines.flatMap raw) = bytes
  broken : ¬IsText bytes → ∃ lines fault, read bytes = ⟨lines, some fault⟩ ∧
    Stops bytes lines fault

theorem restores_read (bytes : Bytes) : Restores bytes := by
  rcases hr : read bytes with ⟨lines, _ | fault⟩
  case none =>
    have htext : IsText bytes := fault_read_eq_none_iff.mp (by rw [hr])
    have hcut := cut_read bytes
    rw [hr] at hcut
    exact ⟨fun _ => ⟨lines, hr, hcut.terminated, encode_of_read hr⟩, fun hno => absurd htext hno⟩
  case some =>
    refine ⟨fun htext => ?_, fun _ => ⟨lines, fault, hr, stops_of_read hr⟩⟩
    have hnone := fault_read_eq_none_iff.mpr htext
    rw [hr] at hnone
    simp at hnone

end BlockSync.Line
