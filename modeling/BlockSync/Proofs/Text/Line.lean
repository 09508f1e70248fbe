import BlockSync.Disk
import BlockSync.Proofs.Text
import BlockSync.Proofs.Text.Utf8

/-! Lines taken apart and put together again. What is read from bytes is a list of lines of which
all but the last are terminated, and writing such a list gives bytes that read as it. -/

namespace BlockSync

theorem Text.eq_of_cutLast {mark : Char} {t head rest : Text}
    (h : Text.cutLast mark t = some (head, rest)) : t = head ++ mark :: rest := by
  induction t generalizing head rest with
  | nil => simp [Text.cutLast] at h
  | cons c t ih =>
    rw [Text.cutLast] at h
    split at h
    next front last hc =>
      obtain ⟨rfl, rfl⟩ := Prod.mk.inj (Option.some.inj h)
      rw [ih hc]
      rfl
    next =>
      split at h
      next he =>
        obtain ⟨rfl, rfl⟩ := Prod.mk.inj (Option.some.inj h)
        rw [he]
        rfl
      next => simp at h

namespace Line

theorem raw_ofRaw (raw : Text) : (ofRaw raw).raw = raw := by
  unfold ofRaw
  split
  next head hn =>
    have hraw := Text.eq_of_cutLast hn
    split
    next text hr =>
      have hhead := Text.eq_of_cutLast hr
      rw [hraw, hhead]
      simp [Line.raw]
    next => rw [hraw]; rfl
  next => simp [Line.raw]

/-- A line as reading gives it. -/
structure Whole (line : Line) : Prop where
  newline : '\n' ∉ line.text
  raw_ne_nil : line.raw ≠ []
  ofRaw_raw : ofRaw line.raw = line

/-- Lines as reading gives them: only the last one may lack a terminator. -/
def Cut (lines : List Line) : Prop :=
  lines.Pairwise (fun line _ => line.terminator ≠ []) ∧ ∀ line ∈ lines, Whole line

theorem ofRaw_of_not_mem {raw : Text} (h : '\n' ∉ raw) : ofRaw raw = ⟨raw, []⟩ := by
  rw [ofRaw, Text.cutLast_eq_none h]

theorem ofRaw_newline (body : Text) :
    ofRaw (body ++ ['\n']) = ⟨body, "\n"⟩ ∨
      ∃ text, body = text ++ ['\r'] ∧ ofRaw (body ++ ['\n']) = ⟨text, "\r\n"⟩ := by
  rw [ofRaw, Text.cutLast_append (by simp)]
  dsimp only
  split
  next text hr => exact .inr ⟨text, Text.eq_of_cutLast hr, rfl⟩
  next => exact .inl rfl

theorem whole_ofRaw_newline {body : Text} (h : '\n' ∉ body) :
    Whole (ofRaw (body ++ ['\n'])) ∧ (ofRaw (body ++ ['\n'])).terminator ≠ [] := by
  have hraw : ofRaw (ofRaw (body ++ ['\n'])).raw = ofRaw (body ++ ['\n']) := by rw [raw_ofRaw]
  have hne : (ofRaw (body ++ ['\n'])).raw ≠ [] := by
    rw [raw_ofRaw]
    simp
  rcases ofRaw_newline body with he | ⟨text, rfl, he⟩
  · exact ⟨⟨by rwa [he], hne, hraw⟩, by rw [he]; simp⟩
  · have ht : '\n' ∉ text := fun hm => h (List.mem_append_left _ hm)
    exact ⟨⟨by rwa [he], hne, hraw⟩, by rw [he]; simp⟩

theorem whole_ofRaw {raw : Text} (h : '\n' ∉ raw) (hne : raw ≠ []) : Whole (ofRaw raw) := by
  rw [ofRaw_of_not_mem h]
  exact ⟨h, by simpa [Line.raw] using hne, by simp [Line.raw, ofRaw_of_not_mem h]⟩

theorem Whole.raw_eq {line : Line} (h : Whole line) :
    '\n' ∉ line.raw ∨ ∃ body, line.raw = body ++ ['\n'] ∧ '\n' ∉ body := by
  have hh := h.ofRaw_raw
  unfold ofRaw at hh
  split at hh
  next head hn =>
    have hraw := Text.eq_of_cutLast hn
    split at hh
    next text hr =>
      have hhead := Text.eq_of_cutLast hr
      have ht : text = line.text := by rw [← hh]
      exact .inr ⟨head, hraw, by rw [hhead, ht]; simpa using h.newline⟩
    next =>
      have ht : head = line.text := by rw [← hh]
      exact .inr ⟨head, hraw, by rw [ht]; exact h.newline⟩
  next =>
    have ht : line.raw = line.text := congrArg Line.text hh
    exact .inl (by rw [ht]; exact h.newline)

theorem Whole.raw_of_terminator {line : Line} (h : Whole line) (ht : line.terminator ≠ []) :
    ∃ body, line.raw = body ++ ['\n'] ∧ '\n' ∉ body := by
  refine h.raw_eq.resolve_left fun hn => ht ?_
  have hh := h.ofRaw_raw
  rw [ofRaw_of_not_mem hn] at hh
  rw [← hh]

theorem ofRaw_return (text : Text) : ofRaw (text ++ ['\r'] ++ ['\n']) = ⟨text, "\r\n"⟩ := by
  rw [ofRaw, Text.cutLast_append (by simp)]
  dsimp only
  rw [Text.cutLast_append (by simp)]

theorem Whole.withText {line : Line} (h : Whole line) {text : Text} (hn : '\n' ∉ text)
    (hne : text ≠ []) (hl : text.getLast? = line.text.getLast?) : Whole ⟨text, line.terminator⟩ := by
  have hraw : (Line.mk text line.terminator).raw ≠ [] := List.append_ne_nil_of_left_ne_nil hne _
  refine ⟨hn, hraw, ?_⟩
  have hh := h.ofRaw_raw
  rcases h.raw_eq with hno | ⟨body, hb, -⟩
  · rw [ofRaw_of_not_mem hno] at hh
    have ht : line.terminator = [] := (congrArg Line.terminator hh).symm
    rw [ht, Line.raw, List.append_nil, ofRaw_of_not_mem hn]
  · rw [hb] at hh
    rcases ofRaw_newline body with he | ⟨front, hf, he⟩
    · rw [he] at hh
      rw [← hh] at hl ⊢
      rcases ofRaw_newline text with ho | ⟨front, rfl, -⟩
      · exact ho
      · -- the old text would end in the carriage return as well
        obtain ⟨more, hm⟩ := List.getLast?_eq_some_iff.mp (hl.symm.trans List.getLast?_concat)
        rw [show body = more ++ ['\r'] from hm, ofRaw_return] at he
        simp at he
    · rw [he] at hh
      rw [← hh]
      have hr : (Line.mk text "\r\n").raw = text ++ ['\r'] ++ ['\n'] := by simp [Line.raw]
      rw [hr, ofRaw_return]

theorem chunks_newline {pre : Text.Utf8.Bytes} (h : (10 : UInt8) ∉ pre) (rest : Text.Utf8.Bytes) :
    chunks (pre ++ 10 :: rest) = (pre ++ [10]) :: chunks rest := by
  induction pre with
  | nil => simp [chunks]
  | cons b pre ih =>
    have hb : b ≠ 10 := fun he => h (by simp [he])
    have hp : (10 : UInt8) ∉ pre := fun hm => h (List.mem_cons_of_mem _ hm)
    simp [chunks, hb, ih hp]

theorem chunks_last {pre : Text.Utf8.Bytes} (h : (10 : UInt8) ∉ pre) (hne : pre ≠ []) :
    chunks pre = [pre] := by
  induction pre with
  | nil => exact absurd rfl hne
  | cons b pre ih =>
    have hb : b ≠ 10 := fun he => h (by simp [he])
    have hp : (10 : UInt8) ∉ pre := fun hm => h (List.mem_cons_of_mem _ hm)
    cases pre with
    | nil => simp [chunks, hb]
    | cons b' pre => rw [chunks, if_neg hb, ih hp (by simp)]

/-- Writing lines and reading them again. -/
theorem Cut.read_encode {lines : List Line} (h : Cut lines) :
    read (Text.Utf8.encode (lines.flatMap raw)) = ⟨lines, none⟩ := by
  obtain ⟨hp, hw⟩ := h
  induction lines with
  | nil => rfl
  | cons line lines ih =>
    rw [List.pairwise_cons] at hp
    have hline := hw line (by simp)
    have hrest := ih hp.2 fun l hl => hw l (List.mem_cons_of_mem _ hl)
    rw [List.flatMap_cons, Text.Utf8.encode_append, read]
    by_cases hn : '\n' ∈ line.raw
    · obtain ⟨body, hb, hbody⟩ := hline.raw_eq.resolve_left (fun hno => hno hn)
      have hbytes : (10 : UInt8) ∉ Text.Utf8.encode body :=
        fun hm => hbody (Text.Utf8.newline_mem_encode.mp hm)
      have henc : Text.Utf8.encode line.raw = Text.Utf8.encode body ++ [10] := by
        rw [hb, Text.Utf8.encode_append]
        rfl
      rw [read] at hrest
      rw [henc, List.append_assoc, List.singleton_append, chunks_newline hbytes, readChunks, ← henc,
        Text.Utf8.decode_encode]
      dsimp only
      rw [hrest, hline.ofRaw_raw]
    · have hlast : lines = [] := by
        cases lines with
        | nil => rfl
        | cons other lines =>
          obtain ⟨body, hb, -⟩ := hline.raw_of_terminator (hp.1 other (by simp))
          exact absurd (by simp [hb]) hn
      subst hlast
      have hbytes : (10 : UInt8) ∉ Text.Utf8.encode line.raw :=
        fun hm => hn (Text.Utf8.newline_mem_encode.mp hm)
      have hne : Text.Utf8.encode line.raw ≠ [] := by
        obtain ⟨c, rest, hr⟩ := List.exists_cons_of_ne_nil hline.raw_ne_nil
        obtain ⟨a, tail, he, -⟩ := Text.Utf8.character_encode c []
        rw [hr, Text.Utf8.encode_cons, he]
        simp
      rw [List.flatMap_nil, show Text.Utf8.encode [] = [] from rfl, List.append_nil,
        chunks_last hbytes hne, readChunks, Text.Utf8.decode_encode]
      dsimp only
      rw [hline.ofRaw_raw]
      rfl

theorem flatten_chunks (bytes : Text.Utf8.Bytes) : (chunks bytes).flatten = bytes := by
  induction bytes with
  | nil => rfl
  | cons b bytes ih =>
    rw [chunks]
    split
    next => rw [List.flatten_cons, ih]; rfl
    next =>
      split
      next he =>
        rw [he] at ih
        rw [← ih]
        rfl
      next chunk more he =>
        rw [he, List.flatten_cons] at ih
        rw [List.flatten_cons, List.cons_append, ih]

theorem encode_of_readChunks {bytes : List Text.Utf8.Bytes} {lines : List Line}
    (h : readChunks bytes = ⟨lines, none⟩) :
    Text.Utf8.encode (lines.flatMap raw) = bytes.flatten := by
  induction bytes generalizing lines with
  | nil =>
    obtain ⟨rfl, -⟩ := Reading.mk.inj h
    rfl
  | cons chunk more ih =>
    rw [readChunks] at h
    cases hd : Text.Utf8.decode chunk with
    | error fault => simp [hd] at h
    | ok text =>
      simp only [hd] at h
      obtain ⟨rfl, hfault⟩ := Reading.mk.inj h
      have hrest : readChunks more = ⟨(readChunks more).lines, none⟩ := by rw [← hfault]
      rw [List.flatMap_cons, Text.Utf8.encode_append, raw_ofRaw, ih hrest, List.flatten_cons,
        ← Text.Utf8.decode_eq_ok.mp hd]

/-- Lines that were read to the end are all that the bytes say. -/
theorem encode_of_read {bytes : Text.Utf8.Bytes} {lines : List Line}
    (h : read bytes = ⟨lines, none⟩) : Text.Utf8.encode (lines.flatMap raw) = bytes := by
  rw [encode_of_readChunks h, flatten_chunks]

/-- A chunk ends behind its only newline, if it has one. -/
def IsChunk (chunk : Text.Utf8.Bytes) : Prop :=
  chunk ≠ [] ∧ ((10 : UInt8) ∉ chunk ∨ ∃ pre, chunk = pre ++ [10] ∧ (10 : UInt8) ∉ pre)

theorem isChunk_chunks (bytes : Text.Utf8.Bytes) :
    (chunks bytes).Pairwise (fun chunk _ => (10 : UInt8) ∈ chunk) ∧
      ∀ chunk ∈ chunks bytes, IsChunk chunk := by
  induction bytes with
  | nil => simp [chunks]
  | cons b bytes ih =>
    rw [chunks]
    split
    next hb =>
      subst hb
      refine ⟨.cons (fun _ _ => by simp) ih.1, fun chunk hc => ?_⟩
      rcases List.mem_cons.mp hc with rfl | hc
      · exact ⟨by simp, .inr ⟨[], rfl, by simp⟩⟩
      · exact ih.2 chunk hc
    next hb =>
      split
      next =>
        refine ⟨by simp, fun chunk hc => ?_⟩
        obtain rfl := List.mem_singleton.mp hc
        exact ⟨by simp, .inl (by simpa using Ne.symm hb)⟩
      next chunk more he =>
        rw [he] at ih
        have hp := List.pairwise_cons.mp ih.1
        refine ⟨.cons (fun c hc => List.mem_cons_of_mem _ (hp.1 c hc)) hp.2, fun c hc => ?_⟩
        rcases List.mem_cons.mp hc with rfl | hc
        · refine ⟨by simp, ?_⟩
          rcases (ih.2 chunk (by simp)).2 with hno | ⟨pre, rfl, hpre⟩
          · exact .inl (by simpa using ⟨Ne.symm hb, hno⟩)
          · exact .inr ⟨b :: pre, rfl, by simpa using ⟨Ne.symm hb, hpre⟩⟩
        · exact ih.2 c (List.mem_cons_of_mem _ hc)

theorem IsChunk.whole {chunk : Text.Utf8.Bytes} (h : IsChunk chunk) {raw : Text}
    (hd : Text.Utf8.decode chunk = .ok raw) :
    Whole (ofRaw raw) ∧ ((10 : UInt8) ∈ chunk → (ofRaw raw).terminator ≠ []) := by
  obtain rfl := Text.Utf8.decode_eq_ok.mp hd
  have hne : raw ≠ [] := by
    rintro rfl
    exact h.1 rfl
  by_cases hn : '\n' ∈ raw
  · obtain ⟨pre, hpre, hno⟩ :=
      h.2.resolve_left (fun hno => hno (Text.Utf8.newline_mem_encode.mpr hn))
    obtain ⟨body, c, rfl⟩ := (List.eq_nil_or_concat raw).resolve_left hne
    rw [List.concat_eq_append] at hpre ⊢
    rw [Text.Utf8.encode_append] at hpre
    obtain ⟨front, b, hb⟩ := (List.eq_nil_or_concat (Text.Utf8.encode [c])).resolve_left (by
      obtain ⟨a, tail, he, -⟩ := Text.Utf8.character_encode c []
      rw [Text.Utf8.encode_cons, he]
      simp)
    rw [List.concat_eq_append] at hb
    rw [hb, ← List.append_assoc] at hpre
    obtain ⟨hfront, hten⟩ := List.append_inj' hpre rfl
    have hc : c = '\n' := by
      have hm : (10 : UInt8) ∈ Text.Utf8.encode [c] := by rw [hb, hten]; simp
      exact (List.mem_singleton.mp (Text.Utf8.newline_mem_encode.mp hm)).symm
    subst hc
    have hbody : '\n' ∉ body := fun hm =>
      hno (hfront ▸ List.mem_append_left _ (Text.Utf8.newline_mem_encode.mpr hm))
    exact ⟨(whole_ofRaw_newline hbody).1, fun _ => (whole_ofRaw_newline hbody).2⟩
  · have hb : (10 : UInt8) ∉ Text.Utf8.encode raw :=
      fun hm => hn (Text.Utf8.newline_mem_encode.mp hm)
    exact ⟨whole_ofRaw hn hne, fun hm => absurd hm hb⟩

theorem cut_readChunks {bytes : List Text.Utf8.Bytes}
    (hp : bytes.Pairwise (fun chunk _ => (10 : UInt8) ∈ chunk)) (hc : ∀ chunk ∈ bytes, IsChunk chunk) :
    Cut (readChunks bytes).lines := by
  induction bytes with
  | nil => exact ⟨.nil, by simp [readChunks]⟩
  | cons chunk more ih =>
    rw [List.pairwise_cons] at hp
    obtain ⟨hpairs, hwhole⟩ := ih hp.2 fun c hm => hc c (List.mem_cons_of_mem _ hm)
    rw [readChunks]
    cases hd : Text.Utf8.decode chunk with
    | error fault => exact ⟨.nil, by simp⟩
    | ok raw =>
      obtain ⟨hw, ht⟩ := (hc chunk (by simp)).whole hd
      refine ⟨.cons (fun line hl => ht ?_) hpairs, fun line hl => ?_⟩
      · cases more with
        | nil => simp [readChunks] at hl
        | cons other more => exact hp.1 other (by simp)
      · rcases List.mem_cons.mp hl with rfl | hl
        · exact hw
        · exact hwhole line hl

theorem cut_read (bytes : Text.Utf8.Bytes) : Cut (read bytes).lines :=
  cut_readChunks (isChunk_chunks bytes).1 (isChunk_chunks bytes).2

end Line

namespace Line

theorem Cut.cons {line : Line} {lines : List Line} (h : Cut lines) (hline : Whole line)
    (ht : lines ≠ [] → line.terminator ≠ []) : Cut (line :: lines) := by
  refine ⟨.cons (fun other ho => ht (List.ne_nil_of_mem ho)) h.1, fun other ho => ?_⟩
  rcases List.mem_cons.mp ho with rfl | ho
  · exact hline
  · exact h.2 other ho

theorem Cut.tail {line : Line} {lines : List Line} (h : Cut (line :: lines)) : Cut lines :=
  ⟨(List.pairwise_cons.mp h.1).2, fun other ho => h.2 other (List.mem_cons_of_mem _ ho)⟩

theorem Cut.sublist {lines more : List Line} (h : Cut more) (hs : lines.Sublist more) : Cut lines :=
  ⟨h.1.sublist hs, fun line hl => h.2 line (hs.subset hl)⟩

/-- Every text is made of lines. -/
theorem exists_cut (t : Text) : ∃ lines, Cut lines ∧ lines.flatMap raw = t := by
  induction t with
  | nil => exact ⟨[], ⟨.nil, by simp⟩, rfl⟩
  | cons c t ih =>
    obtain ⟨lines, hcut, rfl⟩ := ih
    by_cases hc : c = '\n'
    · subst hc
      obtain ⟨hw, ht⟩ := whole_ofRaw_newline (show '\n' ∉ ([] : Text) by simp)
      refine ⟨ofRaw ['\n'] :: lines, hcut.cons hw fun _ => ht, ?_⟩
      simp [raw_ofRaw]
    cases lines with
    | nil =>
      have hw : Whole (ofRaw [c]) := whole_ofRaw (by simpa using Ne.symm hc) (by simp)
      exact ⟨[ofRaw [c]], hcut.cons hw fun hne => absurd rfl hne, by simp [raw_ofRaw]⟩
    | cons first more =>
      have hfirst := hcut.2 first (by simp)
      have hterminator : more ≠ [] → first.terminator ≠ [] := fun hne =>
        let ⟨other, ho⟩ := List.exists_mem_of_ne_nil more hne
        (List.pairwise_cons.mp hcut.1).1 other ho
      refine ⟨ofRaw (c :: first.raw) :: more, ?_, by simp [raw_ofRaw]⟩
      rcases hfirst.raw_eq with hno | ⟨body, hb, hbody⟩
      · have hw : Whole (ofRaw (c :: first.raw)) :=
          whole_ofRaw (by simpa using ⟨Ne.symm hc, hno⟩) (by simp)
        refine hcut.tail.cons hw fun hne => ?_
        obtain ⟨front, hf, -⟩ := hfirst.raw_of_terminator (hterminator hne)
        exact absurd (by simp [hf]) hno
      · have hnew : '\n' ∉ c :: body := by simpa using ⟨Ne.symm hc, hbody⟩
        obtain ⟨hw, ht⟩ := whole_ofRaw_newline hnew
        rw [hb]
        exact hcut.tail.cons hw fun _ => ht

/-- Bytes that are a text are read to their end. -/
theorem read_of_decode {bytes : Text.Utf8.Bytes} {t : Text} (h : Text.Utf8.decode bytes = .ok t) :
    ∃ lines, read bytes = ⟨lines, none⟩ ∧ Cut lines ∧ lines.flatMap raw = t := by
  obtain rfl := Text.Utf8.decode_eq_ok.mp h
  obtain ⟨lines, hcut, rfl⟩ := exists_cut t
  exact ⟨lines, hcut.read_encode, hcut, rfl⟩

end Line

theorem Disk.cut_of_lines {d : Disk} {p : Path} {lines : List Line} {fault : Option Cause}
    (h : d.lines p = .ok (lines, fault)) : Line.Cut lines := by
  unfold Disk.lines at h
  split at h
  next bytes mode _ =>
    have he := (Prod.mk.inj (Except.ok.inj h)).1
    exact he ▸ Line.cut_read bytes
  next =>
    have he := (Prod.mk.inj (Except.ok.inj h)).1
    exact he ▸ ⟨.nil, by simp⟩
  next => simp at h

theorem Line.length_le_byteLength {lines : List Line} (h : ∀ line ∈ lines, Whole line) :
    lines.length ≤ Text.byteLength (lines.flatMap raw) := by
  induction lines with
  | nil => simp
  | cons line lines ih =>
    have hline := Text.byteLength_pos (h line (by simp)).raw_ne_nil
    have hrest := ih fun l hl => h l (List.mem_cons_of_mem _ hl)
    rw [List.flatMap_cons, Text.byteLength_append, List.length_cons]
    omega

theorem Line.byteLength_raw_le {line : Line} {lines : List Line} (h : line ∈ lines) :
    line.raw.byteLength ≤ Text.byteLength (lines.flatMap raw) := by
  obtain ⟨pre, post, rfl⟩ := List.append_of_mem h
  rw [List.flatMap_append, List.flatMap_cons, Text.byteLength_append, Text.byteLength_append]
  omega

/-- Lines that were read to the end are as long as the file, taken together. -/
theorem Disk.exists_byteLength_of_lines {d : Disk} {p : Path} {lines : List Line}
    (h : d.lines p = .ok (lines, none)) : ∃ place bytes mode,
      d.find p.text = .ok (place, .file bytes mode) ∧
        Text.byteLength (lines.flatMap Line.raw) = bytes.length := by
  unfold Disk.lines at h
  split at h
  next place bytes mode hf =>
    obtain ⟨hlines, hfault⟩ := Prod.mk.inj (Except.ok.inj h)
    have hread : Line.read bytes = ⟨lines, none⟩ := by
      rw [← hlines, ← Option.map_eq_none_iff.mp hfault]
    exact ⟨place, bytes, mode, hf, by rw [← Line.encode_of_read hread, Text.Utf8.length_encode]⟩
  next => simp at h
  next => simp at h

theorem Disk.ofRaw_raw_of_lines {d : Disk} {p : Path} {lines : List Line} {fault : Option Cause}
    (h : d.lines p = .ok (lines, fault)) {line : Line} (hl : line ∈ lines) :
    Line.ofRaw line.raw = line :=
  ((Disk.cut_of_lines h).2 line hl).ofRaw_raw

end BlockSync
