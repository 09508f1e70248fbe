/-! Text is the list of its characters. Lines, ids and paths are only ever taken apart and glued
back together, and lists carry the theory for both. -/

namespace BlockSync

abbrev Text := List Char

instance : Coe String Text := ⟨String.toList⟩

namespace Text

/-- The characters with the Unicode property `White_Space`. -/
def isBlank (c : Char) : Bool :=
  let n := c.toNat
  (9 ≤ n && n ≤ 13) || n == 0x20 || n == 0x85 || n == 0xA0 || n == 0x1680 ||
    (0x2000 ≤ n && n ≤ 0x200A) || n == 0x2028 || n == 0x2029 || n == 0x202F ||
    n == 0x205F || n == 0x3000

/-- How many bytes the text takes in UTF-8. -/
def byteLength : Text → Nat
  | [] => 0
  | c :: rest => c.utf8Size + byteLength rest

def trimStart (t : Text) : Text :=
  t.dropWhile isBlank

/-- What follows `lead`, if the text starts with it. -/
def after? (lead t : Text) : Option Text :=
  List.isPrefixOf? lead t

/-- What stands before and after the first `mark`. -/
def cutFirst (mark : Char) (t : Text) : Option (Text × Text) :=
  match t.dropWhile (· != mark) with
  | [] => none
  | _ :: rest => some (t.takeWhile (· != mark), rest)

/-- What stands before and after the last `mark`. -/
def cutLast (mark : Char) : Text → Option (Text × Text)
  | [] => none
  | c :: rest =>
    match cutLast mark rest with
    | some (head, last) => some (c :: head, last)
    | none => if c = mark then some ([], rest) else none

def joinWith (separator : Text) (parts : List Text) : Text :=
  separator.intercalate parts

def ofNat (n : Nat) : Text :=
  Nat.toDigits 10 n

/-- Folds the ASCII capitals only. -/
def lower (t : Text) : Text :=
  t.map Char.toLower

/-- Order by characters, which is also the order of the UTF-8 bytes. -/
def le (s t : Text) : Bool :=
  (compare s t).isLE

/-- A word together with the blanks before it. -/
structure Piece where
  gap : Text
  word : Text
deriving DecidableEq, Repr

def Piece.text (p : Piece) : Text :=
  p.gap ++ p.word

/-- The words of the text, each with the blanks before it, and the blanks at the end. -/
def pieces (t : Text) : List Piece × Text :=
  match _h : t.dropWhile isBlank with
  | [] => ([], t)
  | c :: rest =>
    let more := pieces (rest.dropWhile (!isBlank ·))
    (⟨t.takeWhile isBlank, c :: rest.takeWhile (!isBlank ·)⟩ :: more.1, more.2)
termination_by t.length
decreasing_by
  have h₁ : (rest.dropWhile (!isBlank ·)).length ≤ rest.length :=
    (List.dropWhile_sublist _).length_le
  have h₂ : (t.dropWhile isBlank).length ≤ t.length := (List.dropWhile_sublist _).length_le
  rw [_h, List.length_cons] at h₂
  omega

end Text

end BlockSync
