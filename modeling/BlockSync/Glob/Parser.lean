import BlockSync.Glob

/-! Reading glob patterns. Alternatives in braces may nest; a class that is never closed is an
error, or, for a lenient reader, a plain bracket. -/

namespace BlockSync.Glob

open Text.Utf8 (Bytes)

/-- The ranges of a class and how many characters they and the closing bracket took. -/
inductive ClassEnd
  | closed (ranges : List (Char × Char)) (count : Nat)
  | unclosed
  | badRange

def ClassEnd.later (n : Nat) : ClassEnd → ClassEnd
  | .closed ranges count => .closed ranges (count + n)
  | other => other

/-- Reads the items of a class. `pending` tells that a hyphen waits for the end of its range. -/
def readClass (first pending : Bool) (ranges : List (Char × Char)) : Text → ClassEnd
  | [] => .unclosed
  | c :: rest =>
    if c = ']' ∧ !first then .closed (if pending then ranges ++ [('-', '-')] else ranges) 1
    else if c = '-' ∧ !first ∧ !pending then (readClass false true ranges rest).later 1
    else if pending then
      match ranges.getLast? with
      | some (low, _) =>
        if c < low then .badRange
        else (readClass false false (ranges.dropLast ++ [(low, c)]) rest).later 1
      | none => .badRange
    else (readClass false false (ranges ++ [(c, c)]) rest).later 1

/-- The bytes between those of two characters, when both are written out as bytes. -/
def byteRanges (range : Char × Char) : List (UInt8 × UInt8) :=
  let single := fun b : UInt8 => (b, b)
  let low := Text.Utf8.encode [range.1]
  let high := Text.Utf8.encode [range.2]
  if range.1 = range.2 then low.map single
  else
    low.dropLast.map single ++ [(low.getLastD 0, high.headD 0)] ++ (high.drop 1).map single

/-- The branches that are being read, the newest first, and for each open brace how many there
were before it. -/
structure Reading where
  branches : List (List Token)
  groups : List Nat

namespace Reading

def push (r : Reading) (tokens : List Token) : Reading :=
  match r.branches with
  | [] => { r with branches := [tokens] }
  | branch :: rest => { r with branches := (branch ++ tokens) :: rest }

def last? (r : Reading) : Option Token :=
  (r.branches.headD []).getLast?

def swap (r : Reading) (token : Token) : Reading :=
  match r.branches with
  | [] => { r with branches := [[token]] }
  | branch :: rest => { r with branches := (branch.dropLast ++ [token]) :: rest }

def double (r : Reading) (atEnd : Bool) : Reading :=
  match r.last? with
  | some .leading => r
  | some .beneath => r
  | _ => r.swap (if atEnd then .beneath else .between)

def openGroup (r : Reading) : Reading :=
  ⟨[] :: r.branches, r.branches.length :: r.groups⟩

def closeGroup (r : Reading) : Option Reading :=
  match r.groups with
  | [] => none
  | start :: groups =>
    let count := r.branches.length - start
    let outer : Reading := ⟨r.branches.drop count, groups⟩
    some (outer.push [.choice (r.branches.take count).reverse])

end Reading

/-- Whether doubled stars here can stand for directories: behind a slash or at the start of an
alternative. -/
def startsPart (r : Reading) (previous : Option Char) : Bool :=
  previous == some '/' ||
    (2 ≤ r.branches.length && (previous == some ',' || previous == some '{'))

/-- Reads doubled stars in front of `rest`: the tokens so far and how much of `rest` they took. -/
def readDouble (r : Reading) (previous : Option Char) (rest : Text) : Reading × Nat :=
  let plain := (r.push [.star, .star], 0)
  if r.last?.isNone then
    match rest with
    | [] => (r.push [.leading], 0)
    | c :: _ => if c = '/' then (r.push [.leading], 1) else plain
  else if !startsPart r previous then plain
  else
    match rest with
    | [] => (r.double true, 0)
    | c :: _ =>
      if c = '/' then (r.double false, 1)
      else if (c = ',' ∨ c = '}') ∧ 2 ≤ r.branches.length then (r.double true, 0)
      else plain

/-- Reads a pattern. `plain` tells that brackets have no meaning any more, `previous` is the
character before those that are left. -/
def readFrom (lenient plain : Bool) (previous : Option Char) (r : Reading) :
    Text → Option Reading
  | [] => some r
  | c :: rest =>
    if c = '?' then readFrom lenient plain c (r.push [.any]) rest
    else if c = '*' then
      if rest.head? = some '*' then
        let (r, taken) := readDouble r previous (rest.drop 1)
        let previous := if taken = 0 then '*' else '/'
        readFrom lenient plain previous r ((rest.drop 1).drop taken)
      else readFrom lenient plain c (r.push [.star]) rest
    else if c = '[' ∧ !plain then
      let negated := rest.head? == some '!' || rest.head? == some '^'
      let items := rest.drop negated.toNat
      match readClass true false [] items with
      | .closed ranges count =>
        readFrom lenient plain (some ']') (r.push [.oneOf negated (ranges.flatMap byteRanges)])
          (items.drop count)
      | .badRange => none
      | .unclosed =>
        if lenient then readFrom lenient true c (r.push [.byte 91]) rest else none
    else if c = '{' then readFrom lenient plain c r.openGroup rest
    else if c = '}' then
      match r.closeGroup with
      | none => none
      | some r => readFrom lenient plain c r rest
    else if c = ',' ∧ r.groups ≠ [] then
      readFrom lenient plain c { r with branches := [] :: r.branches } rest
    else if c = '\\' then
      match rest with
      | [] => none
      | d :: rest =>
        readFrom lenient plain d (r.push ((Text.Utf8.encode [d]).map .byte)) rest
    else readFrom lenient plain c (r.push ((Text.Utf8.encode [c]).map .byte)) rest
termination_by t => t.length
decreasing_by all_goals grind

def parse? (lenient : Bool) (pattern : Text) : Option Glob :=
  match readFrom lenient false none ⟨[[]], []⟩ pattern with
  | some ⟨[tokens], _⟩ => some tokens
  | _ => none

end BlockSync.Glob
