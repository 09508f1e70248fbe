import BlockSync.Text

/-! What a reader of records asks of a document, whatever notation it was written in. A record is
a table of its fields or the list of them in order. -/

namespace BlockSync

class Document (δ : Type) where
  /-- Whether it stands for nothing. It may be marked so and hold something all the same. -/
  null? : δ → Option Bool
  bool? : δ → Option Bool
  text? : δ → Option Text
  /-- The name of an alternative that carries nothing. -/
  variant? : δ → Option Text
  items? : δ → Option (List δ)
  fields? : δ → Option (List (Text × δ))

namespace Document

variable {α δ : Type} [Document δ]

/-- A field of a record. A spare one may be missing at the end of a list. -/
structure Field where
  name : Text
  spare : Bool

/-- The values of the known fields. No known field may occur twice, and a strict record has no
others. -/
def record? (strict : Bool) (known : List Field) (d : δ) : Option (List (Option δ)) :=
  match fields? d with
  | some fields =>
    if strict ∧ fields.any (fun f => !known.any (·.name == f.1)) then none
    else
      known.mapM fun k =>
        match fields.filter (·.1 == k.name) with
        | [] => some none
        | [f] => some (some f.2)
        | _ => none
  | none =>
    match items? d with
    | none => none
    | some items =>
      if items.length ≤ known.length ∧ (known.drop items.length).all (·.spare) then
        some (items.map some ++ List.replicate (known.length - items.length) none)
      else none

def required (read : δ → Option α) : Option δ → Option α
  | none => none
  | some d => read d

/-- An absent or null field reads as nothing. -/
def optional (read : δ → Option α) : Option δ → Option (Option α)
  | none => some none
  | some d =>
    match null? d with
    | none => none
    | some true => some none
    | some false => (read d).map some

def orElse (fallback : α) (read : δ → Option α) : Option δ → Option α
  | none => some fallback
  | some d => read d

def listOf? (read : δ → Option α) (d : δ) : Option (List α) :=
  match items? d with
  | none => none
  | some items => items.mapM read

end Document

end BlockSync
