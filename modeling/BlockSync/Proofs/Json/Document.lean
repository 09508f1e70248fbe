import BlockSync.Proofs.Json.Printer

/-! Records written as JSON. Each part is found under its name, one that was left out is not there,
and a tag in front tells alternatives apart. -/

namespace BlockSync.Json

open Document (fields? null? record? required)

variable {α : Type}

theorem printable_record {parts : List (Text × Option Json)}
    (h : ∀ p ∈ parts, ∀ v ∈ p.2, Printable v) : Printable (record parts) := by
  refine .object (fun f hf => ?_) fun f hf => ?_
  · obtain ⟨p, -, hp⟩ := List.mem_filterMap.mp hf
    obtain ⟨v, -, rfl⟩ := Option.map_eq_some_iff.mp hp
    exact ⟨p.1, rfl⟩
  · obtain ⟨p, hm, hp⟩ := List.mem_filterMap.mp hf
    obtain ⟨v, hv, rfl⟩ := Option.map_eq_some_iff.mp hp
    exact h p hm v hv

theorem forall_mem_some {P : Json → Prop} {v : Json} (h : P v) : ∀ w ∈ some v, P w := by
  intro w hw
  obtain rfl := Option.mem_some_iff.mp hw
  exact h

theorem printable_map {write : α → Json} {x : Option α} (h : ∀ a ∈ x, Printable (write a)) :
    ∀ w ∈ x.map write, Printable w := by
  intro w hw
  obtain ⟨a, ha, rfl⟩ := Option.map_eq_some_iff.mp hw
  exact h a ha

theorem printable_items {write : α → Json} {l : List α} (h : ∀ a ∈ l, Printable (write a)) :
    Printable (.array (l.map write)) := by
  refine .array fun v hv => ?_
  obtain ⟨a, ha, rfl⟩ := List.mem_map.mp hv
  exact h a ha

theorem fields?_record (parts : List (Text × Option Json)) :
    fields? (record parts) = some (parts.filterMap fun p => p.2.map (p.1, ·)) := by
  show asFields? (record parts) = _
  rw [record, asFields?]
  induction parts with
  | nil => rfl
  | cons p parts ih =>
    obtain ⟨name, _ | v⟩ := p
    · exact ih
    · simp only [List.filterMap_cons, Option.map_some, List.mapM_cons, unquote?_quote, ih]
      rfl

theorem filter_parts {parts : List (Text × Option Json)} (hn : (parts.map Prod.fst).Nodup)
    (name : Text) :
    (parts.filterMap fun p => p.2.map (p.1, ·)).filter (·.1 == name) =
      ((parts.lookup name).join.map (name, ·)).toList := by
  induction parts with
  | nil => rfl
  | cons p parts ih =>
    obtain ⟨name', value⟩ := p
    rw [List.map_cons, List.nodup_cons] at hn
    have hrest := ih hn.2
    by_cases he : name = name'
    · subst he
      have hnone : parts.lookup name = none := by
        rw [List.lookup_eq_none_iff]
        intro q hq
        refine bne_iff_ne.mpr ?_
        rintro rfl
        exact hn.1 (List.mem_map.mpr ⟨q, hq, rfl⟩)
      rw [hnone] at hrest
      rw [List.lookup_cons_self]
      cases value with
      | none => exact hrest
      | some v =>
        rw [List.filterMap_cons, Option.map_some, List.filter_cons_of_pos (by simp), hrest]
        rfl
    · have hlookup : List.lookup name ((name', value) :: parts) = parts.lookup name := by
        rw [List.lookup_cons, beq_eq_false_iff_ne.mpr he]
      rw [hlookup, ← hrest]
      cases value with
      | none => rfl
      | some v =>
        rw [List.filterMap_cons, Option.map_some, List.filter_cons_of_neg (by simp [Ne.symm he])]

/-- A part is found under its name, unless it was left out. -/
theorem record?_record {parts : List (Text × Option Json)} (hn : (parts.map Prod.fst).Nodup)
    (known : List Document.Field) :
    record? false known (record parts) = some (known.map fun k => (parts.lookup k.name).join) := by
  rw [record?, fields?_record]
  simp only [Bool.false_eq_true, false_and, if_false, filter_parts hn]
  induction known with
  | nil => rfl
  | cons k known ih =>
    rw [List.mapM_cons, ih, List.map_cons]
    cases (parts.lookup k.name).join <;> rfl

theorem optional_map {read : Json → Option α} {write : α → Json} {x : Option α}
    (hnull : ∀ a, null? (write a) = some false) (h : ∀ a ∈ x, read (write a) = some a) :
    Document.optional read (x.map write) = some x := by
  cases x with
  | none => rfl
  | some a =>
    rw [Option.map_some, Document.optional, hnull, h a rfl]
    rfl

theorem asText?_text (t : Text) : asText? (.text t) = some t :=
  unquote?_quote t

theorem asNatural?_natural {n : Nat} (h : InWord n) : asNatural? (.natural n) = some n :=
  natural?_ofNat h

theorem null?_text (t : Text) : null? (Json.text t) = some false := rfl

theorem null?_natural (n : Nat) : null? (Json.natural n) = some false := rfl

theorem mapM_map_eq {β γ : Type} {write : α → β} {read : β → Option γ} {view : α → γ} {l : List α}
    (h : ∀ a ∈ l, read (write a) = some (view a)) : (l.map write).mapM read = some (l.map view) := by
  induction l with
  | nil => rfl
  | cons a l ih =>
    rw [List.map_cons, List.mapM_cons, h a (by simp), ih fun b hb => h b (by simp [hb])]
    rfl

theorem numbered?_object {fields : List (Nat × Json)} (h : ∀ f ∈ fields, InWord f.1) :
    (Json.object (fields.map fun f => (Text.ofNat f.1, f.2))).numbered? = some fields := by
  have hread : ∀ f ∈ fields, (if Text.ofNat f.1 = ['0'] ∨
      (Text.ofNat f.1).head? != some '0' ∧ Text.ofNat f.1 ≠ [] then
        (natural? (Text.ofNat f.1)).map (·, f.2) else none) = some (id f) := by
    intro f hf
    rw [if_pos, natural?_ofNat (h f hf)]
    · rfl
    · by_cases hz : f.1 = 0
      · exact .inl (by rw [hz]; rfl)
      · exact .inr ⟨bne_iff_ne.mpr (head?_ofNat hz), Nat.toDigits_ne_nil⟩
  rw [numbered?, mapM_map_eq hread, List.map_id]

/-! A tagged record is first taken in as a whole, which any text and any number that a reader takes
can be. -/

theorem isFinite_ofNat {n : Nat} (h : InWord n) : Decimal.isFinite (Text.ofNat n) = true := by
  have hdigit : ∀ c ∈ Text.ofNat n, c.isDigit = true := fun _ => Text.isDigit_of_mem_ofNat
  have hne : ∀ e : Char, e.isDigit = false → ∀ c ∈ Text.ofNat n, c ≠ e :=
    fun _ he c hc => ne_of_isDigit (hdigit c hc) he
  have hsign : (Text.ofNat n).dropWhile (fun c => c = '-' || c = '+') = Text.ofNat n := by
    obtain ⟨c, digits, hd, hc⟩ := exists_cons_ofNat n
    rw [hd, List.dropWhile_cons_of_neg]
    simp [ne_of_isDigit hc (e := '-') rfl, ne_of_isDigit hc (e := '+') rfl]
  have hmantissa : (Text.ofNat n).takeWhile (fun c => c != 'e' && c != 'E') = Text.ofNat n :=
    List.takeWhile_eq_self_iff.mpr fun c hc => by simp [hne 'e' rfl c hc, hne 'E' rfl c hc]
  have hpower : (Text.ofNat n).drop ((Text.ofNat n).length + 1) = [] :=
    List.drop_of_length_le (Nat.le_succ _)
  have hfraction : (Text.ofNat n).dropWhile (· != '.') = [] :=
    List.dropWhile_eq_nil_iff.mpr fun c hc => by simp [hne '.' rfl c hc]
  have hdigits : (Text.ofNat n).filter Char.isDigit = Text.ofNat n := List.filter_eq_self.mpr hdigit
  have hlength : ((Text.ofNat n).dropWhile (· = '0')).length ≤ 20 := by
    refine (List.dropWhile_sublist _).length_le.trans ?_
    rw [Text.ofNat, Nat.length_toDigits_le_iff (by omega) (by omega)]
    exact Nat.lt_trans h (by decide)
  have hzero : Decimal.digitsValue [] = 0 := rfl
  simp only [Decimal.isFinite, hsign, hmantissa, hpower, hfraction, hdigits, hzero]
  rw [if_pos]
  right
  simp
  omega

def Flat (v : Json) : Prop :=
  (∃ t, v = .text t) ∨ ∃ n, InWord n ∧ v = .natural n

theorem flat_text (t : Text) : Flat (.text t) :=
  .inl ⟨t, rfl⟩

theorem flat_natural {n : Nat} (h : InWord n) : Flat (.natural n) :=
  .inr ⟨n, h, rfl⟩

theorem Flat.printable {v : Json} (h : Flat v) : Printable v := by
  rcases h with ⟨t, rfl⟩ | ⟨n, hn, rfl⟩
  · exact .text t
  · exact .natural hn

theorem Flat.fits {v : Json} (h : Flat v) (room : Nat) : v.fits room = true := by
  rcases h with ⟨t, rfl⟩ | ⟨n, hn, rfl⟩
  · rw [text, Json.fits, unquote?_quote]
    rfl
  · rw [natural, Json.fits]
    exact isFinite_ofNat hn

theorem fitFields_of_forall {fields : List (Text × Json)} {room : Nat}
    (h : ∀ f ∈ fields, (∃ t, f.1 = quote t) ∧ f.2.fits room = true) :
    fitFields room fields = true := by
  induction fields with
  | nil => rw [fitFields]
  | cons f fields ih =>
    obtain ⟨⟨t, ht⟩, hv⟩ := h f (by simp)
    rw [fitFields, ht, unquote?_quote, hv, ih fun g hg => h g (by simp [hg])]
    rfl

theorem fits_record {parts : List (Text × Option Json)} (h : ∀ p ∈ parts, ∀ v ∈ p.2, Flat v)
    (room : Nat) : (record parts).fits (room + 1) = true := by
  rw [record, Json.fits]
  refine fitFields_of_forall fun f hf => ?_
  obtain ⟨p, hm, hp⟩ := List.mem_filterMap.mp hf
  obtain ⟨v, hv, rfl⟩ := Option.map_eq_some_iff.mp hp
  exact ⟨⟨p.1, rfl⟩, (h p hm v hv).fits room⟩

theorem tagged?_object {fields : List (Text × Json)} {room : Nat} {tag : Text}
    (hfits : (Json.object ((quote "type", .text tag) :: fields)).fits room = true)
    (h : ∀ f ∈ fields, unquote? f.1 ≠ some ("type" : Text)) :
    (Json.object ((quote "type", .text tag) :: fields)).tagged? room =
      some (tag, .object fields) := by
  have hnone : fields.filter (fun f => unquote? f.1 == some ("type" : Text)) = [] :=
    List.filter_eq_nil_iff.mpr fun f hf => by simpa using h f hf
  have hall : fields.filter (not ∘ fun f => unquote? f.1 == some ("type" : Text)) = fields :=
    List.filter_eq_self.mpr fun f hf => by simpa using h f hf
  have hsplit : ((quote "type", Json.text tag) :: fields).partition
      (fun f => unquote? f.1 == some ("type" : Text)) =
        ([(quote "type", Json.text tag)], fields) := by
    rw [List.partition_eq_filter_filter, List.filter_cons_of_pos (by simp [unquote?_quote]), hnone,
      List.filter_cons_of_neg (by simp [unquote?_quote]), hall]
  have hpartition : ((quote "type", Json.text tag) :: fields).partition
      (fun f => unquote? f.1 == some "type") = ([(quote "type", Json.text tag)], fields) := hsplit
  rw [tagged?, hfits, if_neg (by simp), hpartition]
  simp only [asText?_text, Option.map_some]

theorem tagged?_record {parts : List (Text × Option Json)} (h : ∀ p ∈ parts, ∀ v ∈ p.2, Flat v)
    (hn : ∀ p ∈ parts, p.1 ≠ "type") (tag : Text) (room : Nat) :
    (record (("type", some (.text tag)) :: parts)).tagged? (room + 1) =
      some (tag, record parts) := by
  have hfits : (record (("type", some (.text tag)) :: parts)).fits (room + 1) = true := by
    refine fits_record (fun p hp v hv => ?_) room
    rcases List.mem_cons.mp hp with rfl | hp
    · exact .inl ⟨tag, (Option.some.inj hv).symm⟩
    · exact h p hp v hv
  refine tagged?_object hfits fun f hf => ?_
  obtain ⟨p, hm, hp⟩ := List.mem_filterMap.mp hf
  obtain ⟨v, -, rfl⟩ := Option.map_eq_some_iff.mp hp
  simpa [unquote?_quote] using hn p hm

end BlockSync.Json
