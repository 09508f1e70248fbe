import BlockSync.Block
import BlockSync.Proofs.SortedMap
import Mathlib.Data.List.Induction

/-! Blocks of one id as stretches of lines. A block reaches from a start tag of its id at which no
block of the id is open to the first end tag of the id behind it. -/

namespace BlockSync.Block

variable {s : TagSyntax} {id : Text}

/-- How a line with its terminator reads. -/
def reads (s : TagSyntax) (raw : Text) : Tag.Line :=
  s.classify (Line.ofRaw raw).text

def starts (s : TagSyntax) (id raw : Text) : Bool :=
  match reads s raw with
  | .start tag => tag.id == id
  | _ => false

def ends (s : TagSyntax) (id raw : Text) : Bool :=
  match reads s raw with
  | .finish tag => tag.id == id
  | _ => false

def isContent (s : TagSyntax) (raw : Text) : Bool :=
  reads s raw == .content

def StartsAt (s : TagSyntax) (lines : List Text) (id : Text) (i : Nat) : Prop :=
  ∃ raw, lines[i]? = some raw ∧ starts s id raw = true

def EndsAt (s : TagSyntax) (lines : List Text) (id : Text) (i : Nat) : Prop :=
  ∃ raw, lines[i]? = some raw ∧ ends s id raw = true

/-- A block of the id reaches from line `first` to line `last`. -/
structure Closed (s : TagSyntax) (lines : List Text) (id : Text) (first last : Nat) : Prop where
  before : first < last
  starts : StartsAt s lines id first
  ends : EndsAt s lines id last
  fresh : ∀ i < first, StartsAt s lines id i → ∃ j, i < j ∧ j < first ∧ EndsAt s lines id j
  whole : ∀ j, first < j → j < last → ¬EndsAt s lines id j

/-- A block of the id is opened by line `first` and stays open. -/
structure Unclosed (s : TagSyntax) (lines : List Text) (id : Text) (first : Nat) : Prop where
  starts : StartsAt s lines id first
  fresh : ∀ i < first, StartsAt s lines id i → ∃ j, i < j ∧ j < first ∧ EndsAt s lines id j
  whole : ∀ j, first < j → ¬EndsAt s lines id j

/-- The content lines strictly between two lines. -/
def contentBetween (s : TagSyntax) (lines : List Text) (first last : Nat) : List Text :=
  ((lines.take last).drop (first + 1)).filter (isContent s)

/-- One more line of the block that is open, if any. -/
def grow (s : TagSyntax) (id : Text) (open_ : List Text) (raw : Text) : List Text :=
  if ends s id raw then []
  else if open_ = [] ∧ starts s id raw = false then []
  else open_ ++ [raw]

/-- The lines of the block of the id that is open behind the lines. -/
def span (s : TagSyntax) (id : Text) (lines : List Text) : List Text :=
  lines.foldl (grow s id) []

@[simp]
theorem span_nil : span s id [] = [] := rfl

theorem span_concat (lines : List Text) (raw : Text) :
    span s id (lines ++ [raw]) = grow s id (span s id lines) raw := by
  simp [span]

theorem ends_eq_false_of_starts {raw : Text} (h : starts s id raw = true) :
    ends s id raw = false := by
  unfold starts at h
  unfold ends
  split at h <;> simp_all

theorem starts_iff {raw : Text} :
    starts s id raw = true ↔ ∃ tag, reads s raw = .start tag ∧ tag.id = id := by
  unfold starts
  split <;> simp_all

theorem ends_iff {raw : Text} :
    ends s id raw = true ↔ ∃ tag, reads s raw = .finish tag ∧ tag.id = id := by
  unfold ends
  split <;> simp_all

theorem span_eq_cons {lines : List Text} (h : span s id lines ≠ []) :
    ∃ before raw rest, lines = before ++ raw :: rest ∧ span s id lines = raw :: rest ∧
      span s id before = [] ∧ starts s id raw = true ∧ ∀ x ∈ rest, ends s id x = false := by
  induction lines using List.reverseRecOn with
  | nil => exact absurd rfl h
  | append_singleton lines last ih =>
    rw [span_concat, grow] at h ⊢
    split at h
    next => exact absurd rfl h
    next he =>
      have he' : ends s id last = false := by simpa using he
      rw [if_neg he]
      split at h
      next => exact absurd rfl h
      next hs =>
        rw [if_neg hs]
        by_cases ho : span s id lines = []
        · have hst : starts s id last = true := by simpa [ho] using hs
          exact ⟨lines, last, [], rfl, by simp [ho], ho, hst, by simp⟩
        · obtain ⟨before, raw, rest, hl, hsp, hb, hst, hr⟩ := ih ho
          refine ⟨before, raw, rest ++ [last], by simp [hl], by simp [hsp], hb, hst, ?_⟩
          intro x hx
          rcases List.mem_append.mp hx with hx | hx
          · exact hr x hx
          · exact List.mem_singleton.mp hx ▸ he'

theorem foldl_grow_append {open_ rest : List Text} (ho : open_ ≠ [])
    (h : ∀ x ∈ rest, ends s id x = false) : rest.foldl (grow s id) open_ = open_ ++ rest := by
  induction rest generalizing open_ with
  | nil => simp
  | cons x rest ih =>
    have hg : grow s id open_ x = open_ ++ [x] := by simp [grow, ho, h x (by simp)]
    rw [List.foldl_cons, hg, ih (by simp) fun y hy => h y (by simp [hy])]
    simp

theorem span_append_cons {before rest : List Text} {raw : Text} (hb : span s id before = [])
    (hs : starts s id raw = true) (h : ∀ x ∈ rest, ends s id x = false) :
    span s id (before ++ raw :: rest) = raw :: rest := by
  have hg : grow s id [] raw = [raw] := by simp [grow, hs, ends_eq_false_of_starts hs]
  rw [span, List.foldl_append, List.foldl_cons, ← span, hb, hg, foldl_grow_append (by simp) h]
  rfl

theorem StartsAt.lt {lines : List Text} {i : Nat} (h : StartsAt s lines id i) :
    i < lines.length := by
  obtain ⟨raw, hr, -⟩ := h
  exact (List.getElem?_eq_some_iff.mp hr).1

theorem EndsAt.lt {lines : List Text} {i : Nat} (h : EndsAt s lines id i) : i < lines.length := by
  obtain ⟨raw, hr, -⟩ := h
  exact (List.getElem?_eq_some_iff.mp hr).1

theorem startsAt_append_left {lines more : List Text} {i : Nat} (hi : i < lines.length) :
    StartsAt s (lines ++ more) id i ↔ StartsAt s lines id i := by
  simp only [StartsAt, List.getElem?_append_left hi]

theorem endsAt_append_left {lines more : List Text} {i : Nat} (hi : i < lines.length) :
    EndsAt s (lines ++ more) id i ↔ EndsAt s lines id i := by
  simp only [EndsAt, List.getElem?_append_left hi]

theorem startsAt_length {lines more : List Text} {raw : Text} :
    StartsAt s (lines ++ raw :: more) id lines.length ↔ starts s id raw = true := by
  simp [StartsAt]

theorem endsAt_length {lines more : List Text} {raw : Text} :
    EndsAt s (lines ++ raw :: more) id lines.length ↔ ends s id raw = true := by
  simp [EndsAt]

theorem span_eq_nil_iff {lines : List Text} :
    span s id lines = [] ↔ ∀ i, StartsAt s lines id i → ∃ j, i < j ∧ EndsAt s lines id j := by
  constructor
  · intro h
    induction lines using List.reverseRecOn with
    | nil =>
      intro i hi
      exact absurd hi.lt (by simp)
    | append_singleton lines last ih =>
      intro i hi
      have hlt : i < lines.length + 1 := by simpa using hi.lt
      rw [span_concat, grow] at h
      split at h
      next he =>
        have hne : i ≠ lines.length := by
          rintro rfl
          have hs := startsAt_length.mp hi
          simp [ends_eq_false_of_starts hs] at he
        exact ⟨lines.length, by omega, endsAt_length.mpr he⟩
      next =>
        split at h
        next ho =>
          have hne : i ≠ lines.length := by
            rintro rfl
            simp [startsAt_length.mp hi] at ho
          have hi' : i < lines.length := by omega
          obtain ⟨j, hij, hj⟩ := ih ho.1 i ((startsAt_append_left hi').mp hi)
          exact ⟨j, hij, (endsAt_append_left hj.lt).mpr hj⟩
        next => simp at h
  · intro h
    by_contra hn
    obtain ⟨before, raw, rest, rfl, -, -, hs, hr⟩ := span_eq_cons hn
    obtain ⟨j, hj, x, hx, he⟩ := h before.length (startsAt_length.mpr hs)
    rw [List.getElem?_append_right (by omega)] at hx
    obtain ⟨n, hn⟩ : ∃ n, j - before.length = n + 1 := ⟨j - before.length - 1, by omega⟩
    rw [hn, List.getElem?_cons_succ] at hx
    simp [hr x (List.mem_of_getElem? hx)] at he

theorem unclosed_of_span {lines : List Text} (ho : span s id lines ≠ []) :
    Unclosed s lines id (lines.length - (span s id lines).length) := by
  obtain ⟨before, x, rest, rfl, hsp, hb, hs, hr⟩ := span_eq_cons ho
  have hfirst : (before ++ x :: rest).length - (span s id (before ++ x :: rest)).length =
      before.length := by
    simp only [hsp, List.length_append, List.length_cons]
    omega
  rw [hfirst]
  refine ⟨startsAt_length.mpr hs, ?_, ?_⟩
  · intro i hi hsi
    rw [startsAt_append_left hi] at hsi
    obtain ⟨j, hij, hj⟩ := span_eq_nil_iff.mp hb i hsi
    exact ⟨j, hij, hj.lt, (endsAt_append_left hj.lt).mpr hj⟩
  · intro j hj hej
    obtain ⟨y, hy, hye⟩ := hej
    rw [List.getElem?_append_right (by omega)] at hy
    obtain ⟨n, hn⟩ : ∃ n, j - before.length = n + 1 := ⟨j - before.length - 1, by omega⟩
    rw [hn, List.getElem?_cons_succ] at hy
    simp [hr y (List.mem_of_getElem? hy)] at hye

/-- An end tag of an open block closes it. -/
theorem Unclosed.closed {pre : List Text} {raw : Text} {first : Nat}
    (h : Unclosed s pre id first) (he : Block.ends s id raw = true) (post : List Text) :
    Closed s (pre ++ raw :: post) id first pre.length := by
  have hlt := h.starts.lt
  refine ⟨hlt, (startsAt_append_left hlt).mpr h.starts, endsAt_length.mpr he, ?_, ?_⟩
  · intro i hi hsi
    rw [startsAt_append_left (by omega)] at hsi
    obtain ⟨j, hij, hj, hej⟩ := h.fresh i hi hsi
    exact ⟨j, hij, hj, (endsAt_append_left hej.lt).mpr hej⟩
  · intro j hj hjl hej
    exact h.whole j hj ((endsAt_append_left hjl).mp hej)

theorem Closed.span_take {lines : List Text} {first last : Nat} (h : Closed s lines id first last) :
    span s id (lines.take last) = (lines.take last).drop first := by
  obtain ⟨raw, hraw, hs⟩ := h.starts
  have hlast := h.ends.lt
  have hfirst := h.before
  have hlen : (lines.take last).length = last := by simp; omega
  have hget : ∀ {i}, i < last → (lines.take last)[i]? = lines[i]? := fun hi =>
    List.getElem?_take_of_lt hi
  have hcons : (lines.take last).drop first = raw :: (lines.take last).drop (first + 1) := by
    have hf : (lines.take last)[first]? = some raw := (hget hfirst).trans hraw
    obtain ⟨hlt, he⟩ := List.getElem?_eq_some_iff.mp hf
    rw [List.drop_eq_getElem_cons hlt, he]
  have hb : span s id ((lines.take last).take first) = [] := by
    rw [span_eq_nil_iff]
    rintro i ⟨x, hx, hsx⟩
    have hi : i < first := by
      have := (List.getElem?_eq_some_iff.mp hx).1
      simp at this
      omega
    have hx' : lines[i]? = some x := by
      rw [← hget (by omega), ← hx, List.getElem?_take_of_lt hi]
    obtain ⟨j, hij, hj, y, hy, hey⟩ := h.fresh i hi ⟨x, hx', hsx⟩
    refine ⟨j, hij, y, ?_, hey⟩
    rw [List.getElem?_take_of_lt hj, hget (by omega), hy]
  have hr : ∀ x ∈ (lines.take last).drop (first + 1), Block.ends s id x = false := by
    intro x hx
    obtain ⟨n, hn⟩ := List.getElem?_of_mem hx
    rw [List.getElem?_drop] at hn
    have hlt := (List.getElem?_eq_some_iff.mp hn).1
    rw [hlen] at hlt
    by_contra he
    exact h.whole (first + 1 + n) (by omega) hlt
      ⟨x, by rw [← hget hlt, hn], by simpa using he⟩
  have hsplit := span_append_cons hb hs hr
  rwa [← hcons, List.take_append_drop] at hsplit

end BlockSync.Block
