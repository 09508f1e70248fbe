import BlockSync.Json.Printer
import BlockSync.Proofs.Json.Quote
import BlockSync.Proofs.Text

/-! Reading what was printed. Every value reads back with what follows it left over, if that does
not go on where a number stops. -/

namespace BlockSync.Json

/-- A value as it is given to a printer: strings are quoted texts, and numbers are those that a
reader takes. -/
inductive Printable : Json → Prop
  | null : Printable .null
  | bool (value : Bool) : Printable (.bool value)
  | natural {n : Nat} (h : InWord n) : Printable (.natural n)
  | text (t : Text) : Printable (.text t)
  | array {items : List Json} (values : ∀ v ∈ items, Printable v) : Printable (.array items)
  | object {fields : List (Text × Json)} (names : ∀ f ∈ fields, ∃ t, f.1 = quote t)
    (values : ∀ f ∈ fields, Printable f.2) : Printable (.object fields)

def isBlank (c : Char) : Bool :=
  c = ' ' || c = '\n' || c = '\t' || c = '\r'

theorem skipBlanks_cons_of_blank {c : Char} (h : isBlank c = true) (t : Text) :
    skipBlanks (c :: t) = skipBlanks t :=
  List.dropWhile_cons_of_pos h

theorem skipBlanks_cons {c : Char} (h : isBlank c = false) (t : Text) :
    skipBlanks (c :: t) = c :: t :=
  List.dropWhile_cons_of_neg (by simpa [isBlank] using h)

theorem skipBlanks_newline (level : Nat) (t : Text) :
    skipBlanks (newline level ++ t) = skipBlanks t := by
  rw [newline, List.cons_append, skipBlanks_cons_of_blank (by decide)]
  induction 2 * level with
  | zero => rfl
  | succ n ih => rw [List.replicate_succ, List.cons_append, skipBlanks_cons_of_blank (by decide), ih]

theorem skipBlanks_skipBlanks (t : Text) : skipBlanks (skipBlanks t) = skipBlanks t := by
  induction t with
  | nil => rfl
  | cons c t ih =>
    cases h : isBlank c with
    | true => rw [skipBlanks_cons_of_blank h, ih]
    | false => rw [skipBlanks_cons h, skipBlanks_cons h]

theorem readValue_skipBlanks (n : Nat) (t : Text) : readValue n (skipBlanks t) = readValue n t := by
  cases n with
  | zero => rfl
  | succ n => rw [readValue, skipBlanks_skipBlanks, readValue]

theorem readItems_skipBlanks (n : Nat) (t : Text) : readItems n (skipBlanks t) = readItems n t := by
  cases n with
  | zero => rfl
  | succ n => rw [readItems, readValue_skipBlanks, readItems]

theorem readFields_skipBlanks (n : Nat) (t : Text) :
    readFields n (skipBlanks t) = readFields n t := by
  cases n with
  | zero => rfl
  | succ n => rw [readFields, skipBlanks_skipBlanks, readFields]

theorem readValue_newline (n level : Nat) (t : Text) :
    readValue n (newline level ++ t) = readValue n t := by
  rw [← readValue_skipBlanks, skipBlanks_newline, readValue_skipBlanks]

/-- The text is at its end, or goes on behind a value. -/
def Ends (t : Text) : Prop :=
  ∀ c ∈ t.head?, c = ',' ∨ c = '\n'

theorem ends_comma (t : Text) : Ends (',' :: t) := by
  simp [Ends]

theorem ends_newline (level : Nat) (t : Text) : Ends (newline level ++ t) := by
  simp [Ends, newline]

theorem readDigits_append {digits rest : Text} (h : ∀ c ∈ digits, c.isDigit = true)
    (hr : Ends rest) : readDigits (digits ++ rest) = (digits, rest) := by
  have hstop : rest.takeWhile Char.isDigit = [] ∧ rest.dropWhile Char.isDigit = rest := by
    cases rest with
    | nil => exact ⟨rfl, rfl⟩
    | cons c rest =>
      have hc : ¬c.isDigit = true := by rcases hr c rfl with rfl | rfl <;> decide
      exact ⟨List.takeWhile_cons_of_neg hc, List.dropWhile_cons_of_neg hc⟩
  rw [readDigits, List.takeWhile_append_of_pos h, List.dropWhile_append_of_pos h, hstop.1, hstop.2,
    List.append_nil]

theorem exists_cons_ofNat (n : Nat) : ∃ c digits, Text.ofNat n = c :: digits ∧ c.isDigit = true := by
  obtain ⟨c, digits, h⟩ := List.exists_cons_of_ne_nil
    (Nat.toDigits_ne_nil : Nat.toDigits 10 n ≠ [])
  have hc : c ∈ Text.ofNat n := by
    rw [Text.ofNat, h]
    exact List.mem_cons_self
  exact ⟨c, digits, h, Text.isDigit_of_mem_ofNat hc⟩

theorem ne_of_isDigit {c e : Char} (h : c.isDigit = true) (he : e.isDigit = false) : c ≠ e := by
  rintro rfl
  simp [h] at he

theorem readNumber_ofNat (n : Nat) {rest : Text} (hr : Ends rest) :
    readNumber (Text.ofNat n ++ rest) = some (Text.ofNat n, rest) := by
  have hdigits : ∀ c ∈ Text.ofNat n, c.isDigit = true := fun _ => Text.isDigit_of_mem_ofNat
  have hread := readDigits_append hdigits hr
  obtain ⟨c, digits, hd, hc⟩ := exists_cons_ofNat n
  have hwhole : readWhole (Text.ofNat n ++ rest) = some (Text.ofNat n, rest) := by
    by_cases hn : n = 0
    · subst hn
      rfl
    · have hzero : c ≠ '0' := by
        have hhead := head?_ofNat hn
        simpa [hd] using hhead
      rw [hd, List.cons_append] at hread ⊢
      rw [readWhole, hread]
      exact fun _ hz => absurd (List.cons.inj hz).1 hzero
  have hsign : readSign ['-'] (Text.ofNat n ++ rest) = ([], Text.ofNat n ++ rest) := by
    rw [hd, List.cons_append, readSign, if_neg (by simp [ne_of_isDigit hc (e := '-') rfl])]
  have hfraction : readFraction rest = some ([], rest) := by
    rw [readFraction]
    rintro rest' rfl
    simpa using hr '.' rfl
  have hexponent : readExponent rest = some ([], rest) := by
    cases rest with
    | nil => rfl
    | cons c rest =>
      have hc : ¬(c = 'e' ∨ c = 'E') := by rcases hr c rfl with rfl | rfl <;> decide
      rw [readExponent, if_neg hc]
  simp [readNumber, hsign, hwhole, hfraction, hexponent]

theorem readValue_digit {c : Char} (h : c.isDigit = true) (n : Nat) (t : Text) :
    readValue (n + 1) (c :: t) = (readNumber (c :: t)).map fun r => (.number r.1, r.2) := by
  have hne : ∀ e : Char, e.isDigit = false → c ≠ e := fun _ => ne_of_isDigit h
  have hblank : isBlank c = false := by
    simp [isBlank, hne ' ' rfl, hne '\n' rfl, hne '\t' rfl, hne '\r' rfl]
  have hword : readWord (c :: t) = none := by
    have hn : Text.after? "null" (c :: t) = none := by
      simp [Text.after?, List.isPrefixOf?, (hne 'n' rfl).symm]
    have ht : Text.after? "true" (c :: t) = none := by
      simp [Text.after?, List.isPrefixOf?, (hne 't' rfl).symm]
    have hf : Text.after? "false" (c :: t) = none := by
      simp [Text.after?, List.isPrefixOf?, (hne 'f' rfl).symm]
    simp only [readWord, hn, ht, hf]
  rw [readValue, skipBlanks_cons hblank]
  split
  next heq => exact absurd (List.cons.inj heq).1 (hne _ rfl)
  next heq => exact absurd (List.cons.inj heq).1 (hne _ rfl)
  next heq => exact absurd (List.cons.inj heq).1 (hne _ rfl)
  next => rw [hword]

/-- Printed at any level, the value reads back. As every item has a line of its own, twice the length
is room enough. -/
def Reads (v : Json) : Prop :=
  ∀ level n rest, Ends rest → 2 * (print level v).length < n →
    readValue n (print level v ++ rest) = some (v, rest)

theorem Printable.head {v : Json} (h : Printable v) (level : Nat) :
    ∃ c more, print level v = c :: more ∧ isBlank c = false ∧ c ≠ ']' := by
  cases h with
  | null => exact ⟨'n', _, rfl, rfl, by decide⟩
  | bool value => cases value <;> exact ⟨_, _, rfl, rfl, by decide⟩
  | @natural n _ =>
    obtain ⟨c, digits, hd, hc⟩ := exists_cons_ofNat n
    have hne : ∀ e : Char, e.isDigit = false → c ≠ e := fun _ => ne_of_isDigit hc
    refine ⟨c, digits, hd, ?_, hne _ rfl⟩
    simp [isBlank, hne ' ' rfl, hne '\n' rfl, hne '\t' rfl, hne '\r' rfl]
  | text t => exact ⟨'"', _, rfl, rfl, by decide⟩
  | @array items _ => cases items <;> exact ⟨'[', _, rfl, rfl, by decide⟩
  | @object fields _ _ => cases fields <;> exact ⟨'\x7b', _, rfl, rfl, by decide⟩

theorem exists_succ_of_lt {m n : Nat} (h : m < n) : ∃ k, n = k + 1 ∧ m ≤ k :=
  ⟨n - 1, by omega, by omega⟩

theorem reads_null : Reads .null := by
  intro level n rest _ hn
  obtain ⟨n, rfl, -⟩ := exists_succ_of_lt hn
  rfl

theorem reads_bool (value : Bool) : Reads (.bool value) := by
  intro level n rest _ hn
  obtain ⟨n, rfl, -⟩ := exists_succ_of_lt hn
  cases value <;> rfl

theorem reads_text (t : Text) : Reads (.text t) := by
  intro level n rest _ hn
  obtain ⟨n, rfl, -⟩ := exists_succ_of_lt hn
  have hprint : print level (.text t) ++ rest = '"' :: (quote t ++ '"' :: rest) := by
    simp [text, print, quoted]
  rw [hprint, readValue, skipBlanks_cons (by decide)]
  simp only [readString_quote, Option.map_some]
  rfl

theorem reads_natural (k : Nat) : Reads (.natural k) := by
  intro level n rest hr hn
  obtain ⟨n, rfl, -⟩ := exists_succ_of_lt hn
  obtain ⟨c, digits, hd, hc⟩ := exists_cons_ofNat k
  have hread := readNumber_ofNat k hr
  have hprint : print level (.natural k) = Text.ofNat k := by rw [natural, print]
  rw [hd, List.cons_append] at hread
  rw [hprint, hd, List.cons_append, readValue_digit hc, hread, natural, hd]
  rfl

theorem joinWith_cons_cons (a b : Text) (rest : List Text) :
    Text.joinWith "," (a :: b :: rest) = a ++ ',' :: Text.joinWith "," (b :: rest) := by
  rw [Text.joinWith, List.intercalate_cons_cons, List.append_assoc]
  rfl

theorem joinWith_singleton (a : Text) : Text.joinWith "," [a] = a := by
  simp [Text.joinWith]

theorem readItems_printItems {items : List Json} (h : ∀ v ∈ items, Reads v) (hne : items ≠ [])
    (level : Nat) {n : Nat} {close rest : Text} (he : Ends close)
    (hclose : skipBlanks close = ']' :: rest)
    (hn : 2 * (Text.joinWith "," (printItems level items)).length < n) :
    readItems n (Text.joinWith "," (printItems level items) ++ close) = some (items, rest) := by
  induction items generalizing n with
  | nil => exact absurd rfl hne
  | cons v more ih =>
    obtain ⟨n, rfl, hn⟩ := exists_succ_of_lt hn
    have hv : Reads v := h v (by simp)
    have hnewline : 1 ≤ (newline level).length := by simp [newline]
    cases more with
    | nil =>
      rw [printItems, printItems, joinWith_singleton, List.length_append] at hn
      rw [printItems, printItems, joinWith_singleton, List.append_assoc, readItems,
        readValue_newline, hv level n close he (by omega)]
      simp only [hclose]
    | cons w more =>
      rw [printItems, printItems, joinWith_cons_cons, List.length_append, List.length_append,
        List.length_cons, ← printItems] at hn
      have hrest := ih (fun x hx => h x (List.mem_cons_of_mem _ hx)) (by simp) (n := n) (by omega)
      rw [printItems, printItems, joinWith_cons_cons, ← printItems, List.append_assoc,
        List.append_assoc, readItems, readValue_newline, List.cons_append,
        hv level n _ (ends_comma _) (by omega)]
      simp only [skipBlanks_cons (show isBlank ',' = false from rfl), hrest, Option.map_some]

/-- A printed name is the name of the value that follows it. -/
theorem readFields_field (n level : Nat) (t s : Text) :
    readFields (n + 1) (newline level ++ quoted (quote t) ++ ": " ++ s) =
      match readValue n s with
      | none => none
      | some (v, rest) =>
        match skipBlanks rest with
        | ',' :: rest => (readFields n rest).map fun r => ((quote t, v) :: r.1, r.2)
        | '\x7d' :: rest => some ([(quote t, v)], rest)
        | _ => none := by
  have hname : quoted (quote t) ++ (": " ++ s) = '"' :: (quote t ++ '"' :: ':' :: ' ' :: s) := by
    simp [quoted]
  have hvalue : readValue n (' ' :: s) = readValue n s := by
    rw [← readValue_skipBlanks, skipBlanks_cons_of_blank rfl, readValue_skipBlanks]
  rw [List.append_assoc, List.append_assoc, ← readFields_skipBlanks, skipBlanks_newline,
    readFields_skipBlanks, hname, readFields, skipBlanks_cons rfl]
  simp only [readString_quote, skipBlanks_cons (show isBlank ':' = false from rfl)]
  rewrite [hvalue]
  rfl

theorem readFields_printFields {fields : List (Text × Json)} (hk : ∀ f ∈ fields, ∃ t, f.1 = quote t)
    (h : ∀ f ∈ fields, Reads f.2) (hne : fields ≠ []) (level : Nat) {n : Nat} {close rest : Text}
    (he : Ends close) (hclose : skipBlanks close = '\x7d' :: rest)
    (hn : 2 * (Text.joinWith "," (printFields level fields)).length < n) :
    readFields n (Text.joinWith "," (printFields level fields) ++ close) = some (fields, rest) := by
  induction fields generalizing n with
  | nil => exact absurd rfl hne
  | cons f more ih =>
    obtain ⟨n, rfl, hn⟩ := exists_succ_of_lt hn
    obtain ⟨k, v⟩ := f
    obtain ⟨t, rfl⟩ : ∃ t, k = quote t := hk (k, v) (by simp)
    have hv : Reads v := h (quote t, v) (by simp)
    have hnewline : 1 ≤ (newline level).length := by simp [newline]
    cases more with
    | nil =>
      rw [printFields, printFields, joinWith_singleton, List.length_append, List.length_append,
        List.length_append] at hn
      rw [printFields, printFields, joinWith_singleton, List.append_assoc, readFields_field,
        hv level n close he (by omega)]
      simp only [hclose]
    | cons g more =>
      obtain ⟨k', v'⟩ := g
      rw [printFields, printFields, joinWith_cons_cons, List.length_append, List.length_append,
        List.length_append, List.length_append, List.length_cons, ← printFields] at hn
      have hrest := ih (fun x hx => hk x (List.mem_cons_of_mem _ hx))
        (fun x hx => h x (List.mem_cons_of_mem _ hx)) (by simp) (n := n) (by omega)
      rw [printFields, printFields, joinWith_cons_cons, ← printFields, List.append_assoc,
        List.append_assoc, readFields_field, List.cons_append,
        hv level n _ (ends_comma _) (by omega)]
      simp only [skipBlanks_cons (show isBlank ',' = false from rfl), hrest, Option.map_some]

/-- A list or a table whose first item is there is read item by item. -/
theorem readValue_bracket {c : Char} {t s : Text} (hs : skipBlanks t = c :: s) (hc : c ≠ ']')
    (n : Nat) :
    readValue (n + 1) ('[' :: t) = (readItems n t).map fun r => (.array r.1, r.2) := by
  rw [readValue, skipBlanks_cons rfl]
  simp only
  split
  next heq => exact absurd (List.cons.inj (hs.symm.trans heq)).1 hc
  next => rw [readItems_skipBlanks]

theorem readValue_brace {c : Char} {t s : Text} (hs : skipBlanks t = c :: s) (hc : c ≠ '\x7d')
    (n : Nat) :
    readValue (n + 1) ('\x7b' :: t) = (readFields n t).map fun r => (.object r.1, r.2) := by
  rw [readValue, skipBlanks_cons rfl]
  simp only
  split
  next heq => exact absurd (List.cons.inj (hs.symm.trans heq)).1 hc
  next => rw [readFields_skipBlanks]

theorem skipBlanks_joinWith {c : Char} (hc : isBlank c = false) (level : Nat) (t s : Text)
    (more : List Text) :
    ∃ s', skipBlanks (Text.joinWith "," ((newline level ++ c :: t) :: more) ++ s) = c :: s' := by
  obtain ⟨tail, htail⟩ : ∃ tail, Text.joinWith "," ((newline level ++ c :: t) :: more) =
      newline level ++ c :: t ++ tail := by
    cases more with
    | nil => exact ⟨[], by rw [joinWith_singleton, List.append_nil]⟩
    | cons next more => exact ⟨_, joinWith_cons_cons ..⟩
  rw [htail, List.append_assoc, List.append_assoc, skipBlanks_newline, List.cons_append,
    skipBlanks_cons hc]
  exact ⟨_, rfl⟩

theorem reads_array {items : List Json} (hp : ∀ v ∈ items, Printable v)
    (h : ∀ v ∈ items, Reads v) : Reads (.array items) := by
  intro level n rest hr hn
  obtain ⟨n, rfl, hn⟩ := exists_succ_of_lt hn
  cases items with
  | nil => rfl
  | cons v more =>
    have hprint : print level (.array (v :: more)) ++ rest =
        '[' :: (Text.joinWith "," (printItems (level + 1) (v :: more)) ++
          (newline level ++ ']' :: rest)) := by
      simp [print]
    have hclose : skipBlanks (newline level ++ ']' :: rest) = ']' :: rest := by
      rw [skipBlanks_newline, skipBlanks_cons rfl]
    have hlen : 2 * (Text.joinWith "," (printItems (level + 1) (v :: more))).length < n := by
      rw [print, List.length_append, List.length_append, List.length_cons] at hn
      · omega
      · simp
    have hread := readItems_printItems h (by simp) (level + 1) (ends_newline level _) hclose hlen
    obtain ⟨c, t, hc, hblank, hbracket⟩ := (hp v (by simp)).head (level + 1)
    obtain ⟨s, hs⟩ := skipBlanks_joinWith hblank (level + 1) t (newline level ++ ']' :: rest)
      (printItems (level + 1) more)
    rw [← hc, ← printItems] at hs
    rw [hprint, readValue_bracket hs hbracket, hread]
    rfl

theorem reads_object {fields : List (Text × Json)} (hk : ∀ f ∈ fields, ∃ t, f.1 = quote t)
    (h : ∀ f ∈ fields, Reads f.2) : Reads (.object fields) := by
  intro level n rest hr hn
  obtain ⟨n, rfl, hn⟩ := exists_succ_of_lt hn
  cases fields with
  | nil => rfl
  | cons f more =>
    have hprint : print level (.object (f :: more)) ++ rest =
        '\x7b' :: (Text.joinWith "," (printFields (level + 1) (f :: more)) ++
          (newline level ++ '\x7d' :: rest)) := by
      simp [print]
    have hclose : skipBlanks (newline level ++ '\x7d' :: rest) = '\x7d' :: rest := by
      rw [skipBlanks_newline, skipBlanks_cons rfl]
    have hlen : 2 * (Text.joinWith "," (printFields (level + 1) (f :: more))).length < n := by
      rw [print, List.length_append, List.length_append, List.length_cons] at hn
      · omega
      · simp
    have hread := readFields_printFields hk h (by simp) (level + 1) (ends_newline level _) hclose hlen
    obtain ⟨s, hs⟩ := skipBlanks_joinWith (c := '"') rfl (level + 1)
      (f.1 ++ ['"'] ++ ": " ++ print (level + 1) f.2) (newline level ++ '\x7d' :: rest)
      (printFields (level + 1) more)
    have hfields : printFields (level + 1) (f :: more) =
        (newline (level + 1) ++ '"' :: (f.1 ++ ['"'] ++ ": " ++ print (level + 1) f.2)) ::
          printFields (level + 1) more := by
      simp [printFields, quoted]
    rw [← hfields] at hs
    rw [hprint, readValue_brace hs (by decide), hread]
    rfl

theorem Printable.reads {v : Json} (h : Printable v) : Reads v := by
  induction h with
  | null => exact reads_null
  | bool value => exact reads_bool value
  | natural => exact reads_natural _
  | text t => exact reads_text t
  | array values ih => exact reads_array values ih
  | object names values ih => exact reads_object names ih

theorem Printable.parse?_pretty {v : Json} (h : Printable v) : parse? v.pretty = some v := by
  have hread := h.reads 0 (2 * (print 0 v).length + 1) [] (by simp [Ends]) (Nat.lt_succ_self _)
  rw [List.append_nil] at hread
  rw [parse?, pretty, hread]
  rfl

end BlockSync.Json
