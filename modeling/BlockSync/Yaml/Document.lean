import BlockSync.Document
import BlockSync.Yaml.Node

/-! YAML as a notation for records. Only a plain scalar can be null or a truth value, and a plain
scalar without text is as good as an empty list or mapping. -/

namespace BlockSync

open Yaml (Composed Node)

/-- A part of a document, with the nodes that aliases mean. -/
abbrev Yaml := Composed

namespace Yaml

def resolved (y : Yaml) : Node :=
  match y.node with
  | .reference number => (y.anchored.lookup number).getD .empty
  | node => node

def part (y : Yaml) (node : Node) : Yaml :=
  ⟨node, y.anchored⟩

def nullTag : Text := coreTags ++ "null"

def boolTag : Text := coreTags ++ "bool"

def isNullWord (t : Text) : Bool :=
  ([("null" : Text), "Null", "NULL", "~"] : List Text).contains t

def boolOf? (t : Text) : Option Bool :=
  if ([("true" : Text), "True", "TRUE"] : List Text).contains t then some true
  else if ([("false" : Text), "False", "FALSE"] : List Text).contains t then some false
  else none

def isNull? : Node → Option Bool
  | .scalar tag .plain text =>
    if tag = some nullTag then if isNullWord text then some true else none
    else some (tag.isNone && (text.isEmpty || isNullWord text))
  | _ => some false

def asBool? : Node → Option Bool
  | .scalar _ .plain text => boolOf? text
  | .scalar tag .literal text => if tag = some boolTag then boolOf? text else none
  | _ => none

def asText? : Node → Option Text
  | .scalar _ _ text => some text
  | _ => none

/-- The text itself, or a tag of the document's own in front of nothing. -/
def asVariant? : Node → Option Text
  | .scalar (some ('!' :: name)) style text =>
    if style = .plain ∧ (text = [] ∨ isNullWord text) then some (if name = [] then "!" else name)
    else none
  | .scalar _ _ text => some text
  | _ => none

/-- Nothing at all, as far as lists and mappings go. -/
def isVoid : Node → Bool
  | .scalar _ .plain [] => true
  | _ => false

instance : Document Yaml where
  null? y := isNull? y.resolved
  bool? y := asBool? y.resolved
  text? y := asText? y.resolved
  variant? y := asVariant? y.resolved
  items? y :=
    match y.resolved with
    | .list items => some (items.map y.part)
    | node => if isVoid node then some [] else none
  fields? y :=
    match y.resolved with
    | .map entries =>
      entries.mapM fun e => (asText? (y.part e.1).resolved).map (·, y.part e.2)
    | node => if isVoid node then some [] else none

def parse? (t : Text) : Option Yaml :=
  (Token.ofText? t).bind Composed.ofTokens?

end Yaml

end BlockSync
