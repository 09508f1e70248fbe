import BlockSync.Decimal
import BlockSync.Document
import BlockSync.Json

/-! JSON as a notation for records. Alternatives that carry fields are told apart by a field
`type`; finding it takes the whole value in at once, so there every string must mean a text, every
number must be finite, and nesting has a bound. -/

namespace BlockSync.Json

def asText? : Json → Option Text
  | .string written => unquote? written
  | _ => none

def asNatural? : Json → Option Nat
  | .number written => natural? written
  | _ => none

def asVariant? : Json → Option Text
  | .string written => unquote? written
  | .object [(key, .null)] => unquote? key
  | _ => none

def asFields? : Json → Option (List (Text × Json))
  | .object fields => fields.mapM fun f => (unquote? f.1).map (·, f.2)
  | _ => none

instance : Document Json where
  null?
    | .null => some true
    | _ => some false
  bool?
    | .bool b => some b
    | _ => none
  text? := asText?
  variant? := asVariant?
  items?
    | .array items => some items
    | _ => none
  fields? := asFields?

def maxDepth : Nat := 127

mutual

/-- Whether the value can be taken in as a whole with `room` levels left. -/
def fits (room : Nat) : Json → Bool
  | .null => true
  | .bool _ => true
  | .number written => Decimal.isFinite written
  | .string written => (unquote? written).isSome
  | .array items =>
    match room with
    | 0 => false
    | room + 1 => fitItems room items
  | .object fields =>
    match room with
    | 0 => false
    | room + 1 => fitFields room fields

def fitItems (room : Nat) : List Json → Bool
  | [] => true
  | v :: rest => fits room v && fitItems room rest

def fitFields (room : Nat) : List (Text × Json) → Bool
  | [] => true
  | (k, v) :: rest => (unquote? k).isSome && fits room v && fitFields room rest

end

/-- The alternative's name and the rest of a tagged value: an object with a field `type`, or a list
that starts with the name. -/
def tagged? (room : Nat) (v : Json) : Option (Text × Json) :=
  if !fits room v then none
  else
    match v with
    | .array (tag :: rest) => (asText? tag).map (·, .array rest)
    | .object fields =>
      match fields.partition (fun f => unquote? f.1 == some "type") with
      | ([(_, tag)], rest) => (asText? tag).map (·, .object rest)
      | _ => none
    | _ => none

def numbered? (v : Json) : Option (List (Nat × Json)) :=
  match v with
  | .object fields =>
    fields.mapM fun f =>
      if f.1 = ['0'] ∨ f.1.head? != some '0' ∧ f.1 ≠ [] then (natural? f.1).map (·, f.2) else none
  | _ => none

end BlockSync.Json
