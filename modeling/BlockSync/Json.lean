import BlockSync.Text

/-! JSON documents. Strings and numbers are kept as they are written, so that a reader may look at
the spelling, and a part that nobody reads need not make sense. -/

namespace BlockSync

inductive Json
  | null
  | bool (value : Bool)
  | number (written : Text)
  | string (written : Text)
  | array (items : List Json)
  | object (fields : List (Text × Json))
deriving Inhabited

namespace Json

def hexDigit? (c : Char) : Option Nat :=
  if '0' ≤ c ∧ c ≤ '9' then some (c.toNat - 48)
  else if 'a' ≤ c ∧ c ≤ 'f' then some (c.toNat - 87)
  else if 'A' ≤ c ∧ c ≤ 'F' then some (c.toNat - 55)
  else none

def unit? : Text → Option Nat
  | a :: b :: c :: d :: _ => do
    some (4096 * (← hexDigit? a) + 256 * (← hexDigit? b) + 16 * (← hexDigit? c) + (← hexDigit? d))
  | _ => none

def simpleEscape? : Char → Option Char
  | '"' => some '"'
  | '\\' => some '\\'
  | '/' => some '/'
  | 'b' => some '\x08'
  | 'f' => some '\x0c'
  | 'n' => some '\n'
  | 'r' => some '\r'
  | 't' => some '\t'
  | _ => none

/-- What stands behind a backslash: a character, and how many characters spell it. Half of a
surrogate pair alone spells none. -/
def escaped? : Text → Option (Char × Nat)
  | 'u' :: digits =>
    match unit? digits with
    | none => none
    | some unit =>
      if 0xD800 ≤ unit ∧ unit < 0xDC00 then
        match digits.drop 4 with
        | '\\' :: 'u' :: more =>
          match unit? more with
          | none => none
          | some low =>
            if 0xDC00 ≤ low ∧ low < 0xE000 then
              some (Char.ofNat (0x10000 + 1024 * (unit - 0xD800) + (low - 0xDC00)), 11)
            else none
        | _ => none
      else if 0xDC00 ≤ unit ∧ unit < 0xE000 then none
      else some (Char.ofNat unit, 5)
  | c :: _ => (simpleEscape? c).map (·, 1)
  | [] => none

def unquote? : Text → Option Text
  | [] => some []
  | c :: rest =>
    if c = '\\' then
      match escaped? rest with
      | none => none
      | some (d, n) => (unquote? (rest.drop n)).map (d :: ·)
    else (unquote? rest).map (c :: ·)
termination_by t => t.length
decreasing_by
  all_goals simp only [List.length_cons, List.length_drop]
  all_goals omega

def quoteChar (c : Char) : Text :=
  if c = '"' then ['\\', '"']
  else if c = '\\' then ['\\', '\\']
  else if c = '\x08' then ['\\', 'b']
  else if c = '\x0c' then ['\\', 'f']
  else if c = '\n' then ['\\', 'n']
  else if c = '\r' then ['\\', 'r']
  else if c = '\t' then ['\\', 't']
  else if c.toNat < 32 then
    ['\\', 'u', '0', '0', Nat.digitChar (c.toNat / 16), Nat.digitChar (c.toNat % 16)]
  else [c]

def quote (t : Text) : Text :=
  t.flatMap quoteChar

def natural? (written : Text) : Option Nat :=
  let n := written.foldl (fun n c => 10 * n + (c.toNat - 48)) 0
  if written.all Char.isDigit ∧ n < 0x10000000000000000 then some n else none

def text (t : Text) : Json := .string (quote t)

def natural (n : Nat) : Json := .number (Text.ofNat n)

def record (parts : List (Text × Option Json)) : Json :=
  .object (parts.filterMap fun p => p.2.map fun v => (quote p.1, v))

end Json

end BlockSync
