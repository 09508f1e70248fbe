import BlockSync.Decimal
import BlockSync.Json

/-! The spellings of TOML's texts, numbers and moments. Each reader gives what it read together
with the text behind it. -/

namespace BlockSync.Toml

def isBlank (c : Char) : Bool :=
  c = ' ' || c = '\t'

def skipBlanks (t : Text) : Text :=
  t.dropWhile isBlank

def isPlain (c : Char) : Bool :=
  c = '\t' || (32 ≤ c.toNat && c.toNat != 127)

def skipNewline? : Text → Option Text
  | '\n' :: rest => some rest
  | '\r' :: '\n' :: rest => some rest
  | _ => none

def hexValue? (count : Nat) (t : Text) : Option Nat :=
  if t.length < count then none
  else
    ((t.take count).mapM Json.hexDigit?).map fun digits =>
      digits.foldl (fun n d => 16 * n + d) 0

/-- What stands behind a backslash: a character, and how many characters spell it. -/
def escaped? : Text → Option (Char × Nat)
  | 'b' :: _ => some ('\x08', 1)
  | 't' :: _ => some ('\t', 1)
  | 'n' :: _ => some ('\n', 1)
  | 'f' :: _ => some ('\x0c', 1)
  | 'r' :: _ => some ('\r', 1)
  | '"' :: _ => some ('"', 1)
  | '\\' :: _ => some ('\\', 1)
  | 'u' :: digits => scalar? 4 digits
  | 'U' :: digits => scalar? 8 digits
  | _ => none
where
  scalar? (count : Nat) (digits : Text) : Option (Char × Nat) :=
    match hexValue? count digits with
    | none => none
    | some n => if n.isValidChar then some (Char.ofNat n, count + 1) else none

/-- A text behind its quote, on one line. -/
def readBasic : Text → Option (Text × Text)
  | [] => none
  | c :: rest =>
    if c = '"' then some ([], rest)
    else if c = '\\' then
      match escaped? rest with
      | none => none
      | some (d, n) => (readBasic (rest.drop n)).map fun r => (d :: r.1, r.2)
    else if isPlain c then (readBasic rest).map fun r => (c :: r.1, r.2)
    else none
termination_by t => t.length
decreasing_by
  all_goals simp only [List.length_cons, List.length_drop]
  all_goals omega

/-- A text behind its quote in which every character stands for itself. -/
def readLiteral (t : Text) : Option (Text × Text) :=
  let inner := t.takeWhile fun c => c != '\'' && isPlain c
  match t.drop inner.length with
  | '\'' :: rest => some (inner, rest)
  | _ => none

def skipGap : Text → Text
  | [] => []
  | c :: rest =>
    if isBlank c ∨ c = '\n' ∨ c = '\r' ∧ rest.head? = some '\n' then skipGap rest else c :: rest

theorem length_skipGap_le (t : Text) : (skipGap t).length ≤ t.length := by
  induction t with
  | nil => simp [skipGap]
  | cons c rest ih =>
    simp only [skipGap]
    split
    · exact Nat.le_succ_of_le ih
    · exact Nat.le_refl _

/-- A text behind three quotes. Up to two more may stand before the three that end it. -/
def readLong (quote : Char) (escapes : Bool) : Text → Option (Text × Text)
  | [] => none
  | c :: rest =>
    if c = quote then
      let run := 1 + (rest.takeWhile (· = quote)).length
      let behind := rest.dropWhile (· = quote)
      if run < 3 then
        (readLong quote escapes behind).map fun r => (List.replicate run quote ++ r.1, r.2)
      else if run < 6 then some (List.replicate (run - 3) quote, behind)
      else none
    else if c = '\n' then (readLong quote escapes rest).map fun r => ('\n' :: r.1, r.2)
    else if c = '\r' then
      match rest with
      | '\n' :: rest => (readLong quote escapes rest).map fun r => ('\n' :: r.1, r.2)
      | _ => none
    else if c = '\\' ∧ escapes then
      match (skipNewline? (skipBlanks rest)).isSome, escaped? rest with
      | true, _ => readLong quote escapes (skipGap rest)
      | false, some (d, n) => (readLong quote escapes (rest.drop n)).map fun r => (d :: r.1, r.2)
      | false, none => none
    else if isPlain c then (readLong quote escapes rest).map fun r => (c :: r.1, r.2)
    else none
termination_by t => t.length
decreasing_by
  all_goals
    try subst_vars
    have shorter := fun test => (List.dropWhile_sublist (l := rest) test).length_le
    have := length_skipGap_le rest
    simp only [List.length_cons, List.length_drop]
    grind

def skipFirstNewline (t : Text) : Text :=
  (skipNewline? t).getD t

def readText : Text → Option (Text × Text)
  | '"' :: '"' :: '"' :: rest => readLong '"' true (skipFirstNewline rest)
  | '\'' :: '\'' :: '\'' :: rest => readLong '\'' false (skipFirstNewline rest)
  | '"' :: rest => readBasic rest
  | '\'' :: rest => readLiteral rest
  | _ => none

/-- Digits behind the first one, without the underscores between them. -/
def moreDigits (test : Char → Bool) : Text → Option (Text × Text)
  | [] => some ([], [])
  | ['_'] => none
  | '_' :: c :: rest =>
    if test c then (moreDigits test rest).map fun r => (c :: r.1, r.2) else none
  | c :: rest =>
    if test c then (moreDigits test rest).map fun r => (c :: r.1, r.2) else some ([], c :: rest)

def readDigits (test : Char → Bool) : Text → Option (Text × Text)
  | c :: rest =>
    if test c then (moreDigits test rest).map fun r => (c :: r.1, r.2) else none
  | [] => none

def readSign : Text → Text × Text
  | '+' :: rest => (['+'], rest)
  | '-' :: rest => (['-'], rest)
  | t => ([], t)

/-- Digits of which the first is no zero, or a zero alone. -/
def readWhole : Text → Option (Text × Text)
  | '0' :: rest => some (['0'], rest)
  | t => readDigits Char.isDigit t

def readExponent (t : Text) : Option (Text × Text) :=
  let (sign, t) := readSign t
  (readDigits Char.isDigit t).map fun r => ('e' :: sign ++ r.1, r.2)

def checkFloat (sign written rest : Text) : Option Text :=
  if sign = ['-'] ∨ Decimal.isFinite written then some rest else none

def checkInteger (sign : Text) (value : Nat) (rest : Text) : Option Text :=
  let limit := 0x8000000000000000
  if value < limit ∨ sign = ['-'] ∧ value = limit then some rest else none

/-- What follows a decimal number. Whole numbers have 64 bits, and others are not too large. -/
def skipDecimal (t : Text) : Option Text := do
  let (sign, t) := readSign t
  let (whole, t) ← readWhole t
  match t with
  | '.' :: t =>
    let (fraction, t) ← readDigits Char.isDigit t
    let written := whole ++ '.' :: fraction
    match t with
    | c :: rest =>
      if c = 'e' ∨ c = 'E' then
        let (exponent, t) ← readExponent rest
        checkFloat sign (written ++ exponent) t
      else checkFloat sign written t
    | [] => checkFloat sign written []
  | c :: rest =>
    if c = 'e' ∨ c = 'E' then
      let (exponent, t) ← readExponent rest
      checkFloat sign (whole ++ exponent) t
    else checkInteger sign (Decimal.digitsValue whole) (c :: rest)
  | [] => checkInteger sign (Decimal.digitsValue whole) []

def skipBased (base : Nat) (t : Text) : Option Text := do
  let test := fun c => (Json.hexDigit? c).any (· < base)
  let (digits, t) ← readDigits test t
  let value := digits.foldl (fun n c => base * n + (Json.hexDigit? c).getD 0) 0
  checkInteger [] value t

def skipSpecial (t : Text) : Option Text :=
  let t := (readSign t).2
  (Text.after? "inf" t).or (Text.after? "nan" t)

/-- A number of exactly so many digits, within bounds. -/
def readField (count low high : Nat) (t : Text) : Option (Nat × Text) :=
  let digits := t.take count
  let value := Decimal.digitsValue digits
  if digits.length = count ∧ digits.all Char.isDigit ∧ low ≤ value ∧ value ≤ high then
    some (value, t.drop count)
  else none

def monthLength (year month : Nat) : Nat :=
  if month = 2 then
    if year % 4 = 0 ∧ (year % 100 ≠ 0 ∨ year % 400 = 0) then 29 else 28
  else if month ∈ [4, 6, 9, 11] then 30
  else 31

def skipDate (t : Text) : Option Text := do
  let (year, t) ← readField 4 0 9999 t
  let (month, t) ← readField 2 1 12 (← Text.after? "-" t)
  let (_, t) ← readField 2 1 (monthLength year month) (← Text.after? "-" t)
  some t

def skipTime (t : Text) : Option Text := do
  let (_, t) ← readField 2 0 23 t
  let (_, t) ← readField 2 0 59 (← Text.after? ":" t)
  let (_, t) ← readField 2 0 60 (← Text.after? ":" t)
  match t with
  | '.' :: c :: rest => if c.isDigit then some (rest.dropWhile Char.isDigit) else some t
  | _ => some t

def skipOffset (t : Text) : Option Text :=
  match t with
  | 'Z' :: rest => some rest
  | 'z' :: rest => some rest
  | c :: rest =>
    if c = '+' ∨ c = '-' then do
      let (_, t) ← readField 2 0 23 rest
      let (_, t) ← readField 2 0 59 (← Text.after? ":" t)
      some t
    else some t
  | [] => some []

/-- What follows a date, a time of the day, or both. -/
def skipMoment (t : Text) : Option Text :=
  match skipDate t with
  | none => skipTime t
  | some (c :: rest) =>
    if c = 'T' ∨ c = 't' ∨ c = ' ' then
      match skipTime rest with
      | some t => skipOffset t
      | none => some (c :: rest)
    else some (c :: rest)
  | some [] => some []

def skipOther (t : Text) : Option Text :=
  match t with
  | '0' :: 'x' :: rest => skipBased 16 rest
  | '0' :: 'o' :: rest => skipBased 8 rest
  | '0' :: 'b' :: rest => skipBased 2 rest
  | _ =>
    match skipMoment t, skipDecimal t with
    | some rest, _ => some rest
    | none, some rest => some rest
    | none, none => skipSpecial t

end BlockSync.Toml
