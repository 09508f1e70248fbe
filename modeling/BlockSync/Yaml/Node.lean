import BlockSync.Yaml.Token

/-! The nodes of a YAML document, put together from its tokens. An anchor takes the number of names
that were known before it; an alias means the node that took its name's number last. The fuel
bounds the depth of calls, of which there are at most three for a token. -/

namespace BlockSync.Yaml

inductive Node
  | reference (number : Nat)
  | scalar (tag : Option Text) (style : Style) (text : Text)
  | list (items : List Node)
  | map (entries : List (Node × Node))
deriving Inhabited

def Node.empty : Node := .scalar none .plain []

/-- The tokens that are left, and what is known of anchors: the number of each name, the nodes that
took a number, by their place in the order of anchors and the latest first, and those nodes that
are complete. -/
structure Composing where
  tokens : List Token
  names : List (Text × Nat)
  takers : List (Nat × Nat)
  complete : List (Nat × Node)

namespace Composing

def at_ (s : Composing) (tokens : List Token) : Composing :=
  { s with tokens }

def sees (s : Composing) (tokens : List Token) : Bool :=
  s.tokens.head?.any tokens.contains

def takeNumber (s : Composing) (name : Text) : Composing :=
  let number := s.names.length
  { s with
    names :=
      if s.names.any (·.1 == name) then
        s.names.map fun e => if e.1 = name then (name, number) else e
      else s.names ++ [(name, number)]
    takers := (number, s.takers.length) :: s.takers }

def settle (s : Composing) (place : Nat) (node : Node) : Composing :=
  { s with complete := (place, node) :: s.complete }

end Composing

def coreTags : Text := "tag:yaml.org,2002:"

/-- What handles of tags stand for. -/
abbrev TagLeads := List (Text × Text)

def defaultLeads : TagLeads :=
  [("!", "!"), ("!!", coreTags)]

/-- A tag in full, or none if nobody knows its handle. -/
def TagLeads.resolve? (leads : TagLeads) (handle rest : Text) : Option Text :=
  if handle = [] then some rest else (leads.lookup handle).map (· ++ rest)

/-- The anchor and the tag in front of a node, in any order. -/
def readProperties (leads : TagLeads) (tokens : List Token) :
    Option (Option Text × Option Text × List Token) :=
  match tokens with
  | .anchor name :: .tag handle rest :: tokens =>
    (leads.resolve? handle rest).map fun tag => (some name, some tag, tokens)
  | .anchor name :: tokens => some (some name, none, tokens)
  | .tag handle rest :: .anchor name :: tokens =>
    (leads.resolve? handle rest).map fun tag => (some name, some tag, tokens)
  | .tag handle rest :: tokens =>
    (leads.resolve? handle rest).map fun tag => (none, some tag, tokens)
  | tokens => some (none, none, tokens)

def scalarTag (tag : Option Text) : Option Text :=
  tag.filter (· != "!".toList)

mutual

/-- Reads a node. `block` tells that block collections are allowed, `flush` that a list may start
without indentation. -/
def readNode (leads : TagLeads) : Nat → Bool → Bool → Composing → Option (Node × Composing)
  | 0, _, _, _ => none
  | n + 1, block, flush, s =>
    match s.tokens with
    | .reference name :: rest =>
      (s.names.lookup name).map fun number => (.reference number, s.at_ rest)
    | _ =>
      match readProperties leads s.tokens with
      | none => none
      | some (none, tag, tokens) =>
        readContent leads n block flush tag.isSome tag (s.at_ tokens)
      | some (some name, tag, tokens) =>
        let place := s.takers.length
        (readContent leads n block flush true tag ((s.at_ tokens).takeNumber name)).map fun r =>
          (r.1, r.2.settle place r.1)

/-- Reads what may have an anchor or a tag in front; if it has one, it may be empty. -/
def readContent (leads : TagLeads) :
    Nat → Bool → Bool → Bool → Option Text → Composing → Option (Node × Composing)
  | 0, _, _, _, _, _ => none
  | n + 1, block, flush, marked, tag, s =>
    let empty : Option (Node × Composing) :=
      if marked then some (.scalar tag .plain [], s) else none
    match s.tokens with
    | .scalar style text :: rest => some (.scalar (scalarTag tag) style text, s.at_ rest)
    | .flowSequence :: rest =>
      (readFlowItems leads n true (s.at_ rest)).map fun r => (.list r.1, r.2)
    | .flowMapping :: rest =>
      (readFlowPairs leads n true (s.at_ rest)).map fun r => (.map r.1, r.2)
    | .blockSequence :: rest =>
      if block then (readItems leads n (s.at_ rest)).map fun r => (.list r.1, r.2) else empty
    | .blockMapping :: rest =>
      if block then (readPairs leads n (s.at_ rest)).map fun r => (.map r.1, r.2) else empty
    | .entry :: _ =>
      if flush then (readFlushItems leads n s).map fun r => (.list r.1, r.2) else empty
    | _ => empty

def readItems (leads : TagLeads) : Nat → Composing → Option (List Node × Composing)
  | 0, _ => none
  | n + 1, s =>
    match s.tokens with
    | .entry :: rest =>
      let s := s.at_ rest
      let item :=
        if s.sees [.entry, .blockEnd] then some (.empty, s) else readNode leads n true false s
      match item with
      | none => none
      | some (item, s) => (readItems leads n s).map fun r => (item :: r.1, r.2)
    | .blockEnd :: rest => some ([], s.at_ rest)
    | _ => none

def readFlushItems (leads : TagLeads) : Nat → Composing → Option (List Node × Composing)
  | 0, _ => none
  | n + 1, s =>
    match s.tokens with
    | .entry :: rest =>
      let s := s.at_ rest
      let item :=
        if s.sees [.entry, .key, .value, .blockEnd] then some (.empty, s)
        else readNode leads n true false s
      match item with
      | none => none
      | some (item, s) => (readFlushItems leads n s).map fun r => (item :: r.1, r.2)
    | _ => some ([], s)

def readPairs (leads : TagLeads) : Nat → Composing → Option (List (Node × Node) × Composing)
  | 0, _ => none
  | n + 1, s =>
    let part := fun s : Composing =>
      if s.sees [.key, .value, .blockEnd] then some (.empty, s) else readNode leads n true true s
    match s.tokens with
    | .key :: rest =>
      match part (s.at_ rest) with
      | none => none
      | some (key, s) =>
        let value :=
          match s.tokens with
          | .value :: rest => part (s.at_ rest)
          | _ => some (.empty, s)
        match value with
        | none => none
        | some (value, s) => (readPairs leads n s).map fun r => ((key, value) :: r.1, r.2)
    | .blockEnd :: rest => some ([], s.at_ rest)
    | _ => none

/-- The items of a list in brackets, behind the bracket if they are the first ones. -/
def readFlowItems (leads : TagLeads) :
    Nat → Bool → Composing → Option (List Node × Composing)
  | 0, _, _ => none
  | n + 1, first, s =>
    let part := fun s : Composing =>
      if s.sees [.comma, .flowSequenceEnd] then some (.empty, s)
      else readNode leads n false false s
    let item := fun s : Composing =>
      match s.tokens with
      | .flowSequenceEnd :: rest => some (none, s.at_ rest)
      | .key :: rest =>
        let s := s.at_ rest
        let key :=
          if s.sees [.value, .comma, .flowSequenceEnd] then some (.empty, s.at_ (rest.drop 1))
          else readNode leads n false false s
        match key with
        | none => none
        | some (key, s) =>
          match s.tokens with
          | .value :: rest => (part (s.at_ rest)).map fun r => (some (.map [(key, r.1)]), r.2)
          | _ => some (some (.map [(key, .empty)]), s)
      | _ => (readNode leads n false false s).map fun r => (some r.1, r.2)
    let here :=
      match first, s.tokens with
      | true, _ => item s
      | false, .flowSequenceEnd :: _ => item s
      | false, .comma :: rest => item (s.at_ rest)
      | false, _ => none
    match here with
    | none => none
    | some (none, s) => some ([], s)
    | some (some node, s) => (readFlowItems leads n false s).map fun r => (node :: r.1, r.2)

/-- The pairs of a mapping in braces, behind the brace if they are the first ones. -/
def readFlowPairs (leads : TagLeads) :
    Nat → Bool → Composing → Option (List (Node × Node) × Composing)
  | 0, _, _ => none
  | n + 1, first, s =>
    let pair := fun s : Composing =>
      match s.tokens with
      | .flowMappingEnd :: rest => some (none, s.at_ rest)
      | .key :: rest =>
        let s := s.at_ rest
        let key :=
          if s.sees [.value, .comma, .flowMappingEnd] then some (.empty, s)
          else readNode leads n false false s
        match key with
        | none => none
        | some (key, s) =>
          match s.tokens with
          | .value :: rest =>
            let s := s.at_ rest
            if s.sees [.comma, .flowMappingEnd] then some (some (key, .empty), s)
            else (readNode leads n false false s).map fun r => (some (key, r.1), r.2)
          | _ => some (some (key, .empty), s)
      | _ => (readNode leads n false false s).map fun r => (some (r.1, .empty), r.2)
    let here :=
      match first, s.tokens with
      | true, _ => pair s
      | false, .flowMappingEnd :: _ => pair s
      | false, .comma :: rest => pair (s.at_ rest)
      | false, _ => none
    match here with
    | none => none
    | some (none, s) => some ([], s)
    | some (some entry, s) => (readFlowPairs leads n false s).map fun r => (entry :: r.1, r.2)

end

/-- The handles that directives declare, none of them twice, and the tokens behind. The version may
be told once. -/
def readDirectives (versioned : Bool) (leads : TagLeads) :
    List Token → Option (TagLeads × List Token)
  | .version major minor :: rest =>
    if versioned ∨ major ≠ 1 ∨ (minor ≠ 1 ∧ minor ≠ 2) then none
    else readDirectives true leads rest
  | .tagLead handle lead :: rest =>
    if leads.any (·.1 == handle) then none
    else readDirectives versioned (leads ++ [(handle, lead)]) rest
  | tokens => some (leads, tokens)

def startsDocument : Token → Bool
  | .version .. => true
  | .tagLead .. => true
  | .documentStart => true
  | _ => false

/-- A document, and the nodes that its aliases mean. -/
structure Composed where
  node : Node
  anchored : List (Nat × Node)

def Composed.ofReading (r : Node × Composing) : Option Composed :=
  if r.2.tokens.all (· = .documentEnd) then
    some
      ⟨r.1, r.2.takers.filterMap fun (number, place) =>
        (r.2.complete.lookup place).map (number, ·)⟩
  else none

/-- Reads the node of the only document, which may be missing. -/
def Composed.ofTokens? (tokens : List Token) : Option Composed :=
  let fuel := 3 * tokens.length + 3
  let reading : Option (Node × Composing) :=
    match tokens with
    | [] => some (.empty, ⟨[], [], [], []⟩)
    | first :: _ =>
      if startsDocument first then
        match readDirectives false [] tokens with
        | some (leads, .documentStart :: rest) =>
          let s : Composing := ⟨rest, [], [], []⟩
          match rest with
          | [] => some (.empty, s)
          | next :: _ =>
            if startsDocument next ∨ next = .documentEnd then some (.empty, s)
            else readNode (leads ++ defaultLeads) fuel true false s
        | _ => none
      else readNode defaultLeads fuel true false ⟨tokens, [], [], []⟩
  reading.bind ofReading

end BlockSync.Yaml
