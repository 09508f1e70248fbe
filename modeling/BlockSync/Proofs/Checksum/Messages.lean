import BlockSync.Proofs.Block.Completed
import BlockSync.Proofs.Checksum
import BlockSync.Proofs.Text.Line
import BlockSync.Tag
import Mathlib.Data.Set.Operations

/-! What checksums tell apart. The message behind a checksum has neither the lengths of its lines nor
that of the path in it, and still both come back: the lines of a block are lines of a file, so each of
them but the last ends in its only newline, and the last zero byte stands before the path. Where the
digests of messages differ in their first eight bytes, the checksums differ too. -/

namespace BlockSync.Checksum

open Text (Solid)
open Text.Utf8 (Bytes encode)

variable {lines lines' : List Text} {relative relative' : Text}

/-- All that a checksum keeps of a message. -/
def head (message : Bytes) : Bytes :=
  (Digest.Sha256.digest message).take 8

def contentMessage (lines : List Text) : Bytes :=
  lines.flatMap encode

def selfMessage (lines : List Text) (relative : Text) : Bytes :=
  lines.flatMap encode ++ 0 :: encode relative

theorem content_eq (h : lines ≠ []) : content lines = ofBytes (contentMessage lines) :=
  if_neg h

theorem length_head (message : Bytes) : (head message).length = 8 := by
  have hdigest : (Digest.Sha256.digest message).length = 32 := by
    simp [Digest.Sha256.digest, Digest.Sha256.State.words, Digest.Sha256.bigEndian]
  rw [head, List.length_take, hdigest]
  rfl

/-- Bytes of one length are the digits of a number. -/
theorem eq_of_foldl {bytes bytes' : Bytes} {n n' : Nat} (hlen : bytes.length = bytes'.length)
    (h : bytes.foldl (fun n b => 256 * n + b.toNat) n =
      bytes'.foldl (fun n b => 256 * n + b.toNat) n') : n = n' ∧ bytes = bytes' := by
  induction bytes generalizing bytes' n n' with
  | nil =>
    obtain rfl := List.length_eq_zero_iff.mp hlen.symm
    exact ⟨h, rfl⟩
  | cons b bytes ih =>
    cases bytes' with
    | nil => simp at hlen
    | cons b' bytes' =>
      obtain ⟨hn, rfl⟩ : 256 * n + b.toNat = 256 * n' + b'.toNat ∧ bytes = bytes' :=
        ih (Nat.succ.inj hlen) h
      have hb := b.toNat_lt
      have hb' := b'.toNat_lt
      have heq : n = n' ∧ b.toNat = b'.toNat := by omega
      exact ⟨heq.1, by rw [UInt8.toNat_inj.mp heq.2]⟩

theorem valueOf_inj {bytes bytes' : Bytes} (hlen : bytes.length = bytes'.length)
    (h : valueOf bytes = valueOf bytes') : bytes = bytes' :=
  (eq_of_foldl hlen h).2

theorem ofBytes_eq (message : Bytes) : ofBytes message = Text.ofNat (valueOf (head message)) :=
  rfl

theorem ofBytes_eq_iff {message message' : Bytes} :
    ofBytes message = ofBytes message' ↔ head message = head message' := by
  rw [ofBytes_eq, ofBytes_eq]
  constructor
  · intro h
    exact valueOf_inj (by rw [length_head, length_head]) (Text.ofNat_inj h)
  · intro h
    rw [h]

/-- A checksum that is written in digits can be mistaken for nothing else that a tag may hold. -/
structure Number (checksum : Text) : Prop where
  ne_nil : checksum ≠ []
  digits : ∀ c ∈ checksum, c.isDigit = true
  ne_absent : checksum ≠ absent
  solid : Solid checksum
  not_commentEnd : Tag.isCommentEnd checksum = false

theorem number_digits (n : Nat) : Number (Text.ofNat n) := by
  obtain ⟨hne, hsolid⟩ := number_ofNat n
  have hdigits : ∀ c ∈ Text.ofNat n, c.isDigit = true := fun _ => Text.isDigit_of_mem_ofNat
  refine ⟨hne, hdigits, ?_, hsolid, ?_⟩
  · intro he
    have hletter := hdigits 'N' (by rw [he]; decide)
    exact absurd hletter (by decide)
  · obtain ⟨c, rest, hc⟩ := List.exists_cons_of_ne_nil hne
    have hends : Tag.commentEndChars.all (! ·.isDigit) = true := by decide
    have hfirst : c ∉ Tag.commentEndChars := by
      intro hm
      have hdigit := hdigits c (by rw [hc]; exact List.mem_cons_self)
      have hother := List.all_eq_true.mp hends c hm
      simp [hdigit] at hother
    rw [hc]
    simp [Tag.isCommentEnd, hfirst]

theorem number_self (lines : List Text) (relative : Text) : Number (self lines relative) :=
  number_digits _

/-- The content of a block that was completed among the lines of some file. -/
def Collected (lines : List Text) : Prop :=
  ∃ (s : TagSyntax) (resolve : Text → Resolved) (bytes : Bytes),
    let blocks := Block.completed (Block.events s resolve ((Line.read bytes).lines.map Line.raw))
    lines ∈ blocks.map Block.content

theorem Collected.exists_cut (h : Collected lines) :
    ∃ cut, Line.Cut cut ∧ lines = cut.map Line.raw := by
  obtain ⟨s, resolve, bytes, hmem⟩ := h
  obtain ⟨b, hb, rfl⟩ := List.mem_map.mp hmem
  obtain ⟨cut, hsub, hcontent⟩ := List.sublist_map_iff.mp (Block.content_sublist_of_mem_events hb)
  exact ⟨cut, (Line.cut_read bytes).sublist hsub, hcontent⟩

theorem encode_inj {t u : Text} (h : encode t = encode u) : t = u := by
  have hdecode := congrArg Text.Utf8.decode h
  rw [Text.Utf8.decode_encode, Text.Utf8.decode_encode] at hdecode
  exact Except.ok.inj hdecode

theorem contentMessage_eq (lines : List Text) : contentMessage lines = encode lines.flatten := by
  induction lines with
  | nil => rfl
  | cons line lines ih =>
    rw [contentMessage, List.flatMap_cons, List.flatten_cons, Text.Utf8.encode_append, ← ih]
    rfl

theorem selfMessage_eq (lines : List Text) (relative : Text) :
    selfMessage lines relative = encode (lines.flatten ++ '\x00' :: relative) := by
  rw [Text.Utf8.encode_append, ← contentMessage_eq]
  rfl

/-- Lines of a file put together come apart again. -/
theorem Collected.eq_of_flatten (h : Collected lines) (h' : Collected lines')
    (he : lines.flatten = lines'.flatten) : lines = lines' := by
  obtain ⟨cut, hcut, rfl⟩ := h.exists_cut
  obtain ⟨cut', hcut', rfl⟩ := h'.exists_cut
  have hread := hcut.read_encode
  have hread' := hcut'.read_encode
  rw [List.flatMap_def] at hread hread'
  rw [he, hread'] at hread
  rw [(Line.Reading.mk.inj hread).1]

theorem Collected.eq_of_contentMessage (h : Collected lines) (h' : Collected lines')
    (he : contentMessage lines = contentMessage lines') : lines = lines' := by
  rw [contentMessage_eq, contentMessage_eq] at he
  exact h.eq_of_flatten h' (encode_inj he)

/-- The content may hold zero bytes of its own, but none stands behind the one before the path. -/
theorem Collected.eq_of_selfMessage (h : Collected lines) (h' : Collected lines')
    (hr : '\x00' ∉ relative) (hr' : '\x00' ∉ relative')
    (he : selfMessage lines relative = selfMessage lines' relative') :
    lines = lines' ∧ relative = relative' := by
  rw [selfMessage_eq, selfMessage_eq] at he
  have hcut := Text.cutLast_append hr lines.flatten
  have hcut' := Text.cutLast_append hr' lines'.flatten
  rw [encode_inj he, hcut'] at hcut
  obtain ⟨hflatten, hrelative⟩ := Prod.mk.inj (Option.some.inj hcut)
  exact ⟨h.eq_of_flatten h' hflatten.symm, hrelative.symm⟩

theorem number_content (h : lines ≠ []) : Number (content lines) := by
  rw [content_eq h]
  exact number_digits _

theorem content_eq_absent_iff : content lines = absent ↔ lines = [] := by
  constructor
  · intro he
    by_contra hne
    exact (number_content hne).ne_absent he
  · exact fun he => if_pos he

section

variable {considered : Set Bytes}

theorem Collected.content_eq_iff (h : Collected lines) (h' : Collected lines')
    (hinj : Set.InjOn head considered) (hm : lines ≠ [] → contentMessage lines ∈ considered)
    (hm' : lines' ≠ [] → contentMessage lines' ∈ considered) :
    content lines = content lines' ↔ lines = lines' := by
  refine ⟨fun he => ?_, fun he => by rw [he]⟩
  by_cases hne : lines = [] ∨ lines' = []
  · -- a number is never the checksum of no content
    rw [← content_eq_absent_iff, ← content_eq_absent_iff, ← he, or_self] at hne
    have hnone := content_eq_absent_iff.mp hne
    have hnone' := content_eq_absent_iff.mp (he ▸ hne)
    rw [hnone, hnone']
  · obtain ⟨hl, hl'⟩ := not_or.mp hne
    rw [content_eq hl, content_eq hl', ofBytes_eq_iff] at he
    exact h.eq_of_contentMessage h' (hinj (hm hl) (hm' hl') he)

theorem Collected.self_eq_iff (h : Collected lines) (h' : Collected lines')
    (hr : '\x00' ∉ relative) (hr' : '\x00' ∉ relative') (hinj : Set.InjOn head considered)
    (hm : selfMessage lines relative ∈ considered)
    (hm' : selfMessage lines' relative' ∈ considered) :
    self lines relative = self lines' relative' ↔ lines = lines' ∧ relative = relative' := by
  refine ⟨fun he => ?_, fun ⟨hl, hp⟩ => by rw [hl, hp]⟩
  exact h.eq_of_selfMessage h' hr hr' (hinj hm hm' (ofBytes_eq_iff.mp he))

/-- What checksums tell apart among the messages considered, and how they are spelled. -/
structure Unambiguous (considered : Set Bytes) : Prop where
  content_iff : ∀ {lines lines'}, Collected lines → Collected lines' →
    (lines ≠ [] → contentMessage lines ∈ considered) →
    (lines' ≠ [] → contentMessage lines' ∈ considered) →
    (content lines = content lines' ↔ lines = lines')
  self_iff : ∀ {lines lines' relative relative'}, Collected lines → Collected lines' →
    '\x00' ∉ relative → '\x00' ∉ relative' →
    selfMessage lines relative ∈ considered → selfMessage lines' relative' ∈ considered →
    (self lines relative = self lines' relative' ↔ lines = lines' ∧ relative = relative')
  number_content : ∀ {lines}, lines ≠ [] → Number (content lines)
  number_self : ∀ lines relative, Number (self lines relative)

theorem unambiguous_of_injOn (h : Set.InjOn head considered) : Unambiguous considered := by
  refine ⟨?_, ?_, number_content, number_self⟩
  · intro lines lines' hl hl' hm hm'
    exact hl.content_eq_iff hl' h hm hm'
  · intro lines lines' relative relative' hl hl' hr hr' hm hm'
    exact hl.self_eq_iff hl' hr hr' h hm hm'

end

/-- Two blocks of one file, the second of which has one more line. -/
theorem unambiguous_blocks :
    let messages := [contentMessage ["x\n"], contentMessage ["x\n", "y\n"],
      selfMessage ["x\n"] "a.md", selfMessage ["x\n"] "b.md"]
    Set.InjOn head {m | m ∈ messages} ∧ content ["x\n"] ≠ content ["x\n", "y\n"] ∧
      self ["x\n"] "a.md" ≠ self ["x\n"] "b.md" := by
  intro messages
  let contents : List (List Text) := [["x\n"], ["x\n", "y\n"]]
  have hblocks : (Block.completed (Block.events default (fun _ => ⟨.remote "m", true⟩)
      ((Line.read (encode ("# sync-start:a m\nx\n# sync-end:a\n" ++
        "# sync-start:b m\nx\ny\n# sync-end:b\n" : Text))).lines.map Line.raw))).map
      Block.content = contents := by decide +kernel
  have hcollected : ∀ lines ∈ contents, Collected lines :=
    fun lines hl => ⟨default, _, _, hblocks ▸ hl⟩
  have hone : Collected ["x\n"] := hcollected _ (by simp [contents])
  have htwo : Collected ["x\n", "y\n"] := hcollected _ (by simp [contents])
  have hall : ∀ m ∈ messages, ∀ m' ∈ messages, head m = head m' → m = m' := by decide +kernel
  have hinj : Set.InjOn head {m | m ∈ messages} := fun m hm m' hm' => hall m hm m' hm'
  have hconsidered : ∀ m ∈ messages, m ∈ {m | m ∈ messages} := fun _ hm => hm
  have hu := unambiguous_of_injOn hinj
  refine ⟨hinj, fun he => ?_, fun he => ?_⟩
  · have hlines := (hu.content_iff hone htwo (fun _ => hconsidered _ (by simp [messages]))
      (fun _ => hconsidered _ (by simp [messages]))).mp he
    simp at hlines
  · have hboth := (hu.self_iff hone hone (by decide) (by decide)
      (hconsidered _ (by simp [messages])) (hconsidered _ (by simp [messages]))).mp he
    simp at hboth

end BlockSync.Checksum
