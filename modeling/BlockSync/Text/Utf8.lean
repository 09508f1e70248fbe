import BlockSync.Text

/-! UTF-8 as bytes. Decoding stops at the first ill-formed sequence and says where it begins and
how many of its bytes cannot belong to any character; lossy decoding puts one replacement
character for each such sequence and goes on behind it. -/

namespace BlockSync.Text.Utf8

abbrev Bytes := List UInt8

def encode (t : Text) : Bytes :=
  t.flatMap String.utf8EncodeChar

/-- An ill-formed sequence. Without a width the bytes end inside it. -/
structure Fault where
  index : Nat
  width : Option Nat
deriving DecidableEq, Repr

def Fault.message (f : Fault) : Text :=
  match f.width with
  | some n =>
    "invalid utf-8 sequence of " ++ ofNat n ++ " bytes from index " ++ ofNat f.index
  | none => "incomplete utf-8 byte sequence from index " ++ ofNat f.index

/-- How many bytes follow a first byte, and the bounds of the next one. -/
def follow? (a : Nat) : Option (Nat × Nat × Nat) :=
  if a < 0x80 then some (0, 0x80, 0xBF)
  else if a < 0xC2 then none
  else if a < 0xE0 then some (1, 0x80, 0xBF)
  else if a = 0xE0 then some (2, 0xA0, 0xBF)
  else if a = 0xED then some (2, 0x80, 0x9F)
  else if a < 0xF0 then some (2, 0x80, 0xBF)
  else if a = 0xF0 then some (3, 0x90, 0xBF)
  else if a < 0xF4 then some (3, 0x80, 0xBF)
  else if a = 0xF4 then some (3, 0x80, 0x8F)
  else none

/-- Reads `n` more bytes of a character, the first of them within bounds. `seen` bytes came
before; the error is the width of the ill-formed sequence. -/
def gather (value seen : Nat) : Nat → Nat × Nat → Bytes → Except (Option Nat) Nat
  | 0, _, _ => .ok value
  | _ + 1, _, [] => .error none
  | n + 1, (low, high), b :: rest =>
    if low ≤ b.toNat ∧ b.toNat ≤ high then
      gather (value * 64 + b.toNat % 64) (seen + 1) n (0x80, 0xBF) rest
    else .error (some seen)

/-- The bits of a first byte that belong to its character. -/
def leadBits (a n : Nat) : Nat :=
  match n with
  | 0 => a
  | 1 => a % 32
  | 2 => a % 16
  | _ => a % 8

/-- The character that starts with byte `a`, and how many of the bytes behind it are its own. -/
def character (a : UInt8) (rest : Bytes) : Except (Option Nat) (Char × Nat) :=
  match follow? a.toNat with
  | none => .error (some 1)
  | some (n, bounds) =>
    (gather (leadBits a.toNat n) 1 n bounds rest).map fun value => (Char.ofNat value, n)

def decodeFrom (index : Nat) : Bytes → Except Fault Text
  | [] => .ok []
  | a :: rest =>
    match character a rest with
    | .error width => .error ⟨index, width⟩
    | .ok (c, n) => (decodeFrom (index + n + 1) (rest.drop n)).map (c :: ·)
termination_by bytes => bytes.length
decreasing_by
  simp only [List.length_cons, List.length_drop]
  omega

def decode (bytes : Bytes) : Except Fault Text :=
  decodeFrom 0 bytes

def decodeLossy : Bytes → Text
  | [] => []
  | a :: rest =>
    match character a rest with
    | .error none => [Char.ofNat 0xFFFD]
    | .error (some n) => Char.ofNat 0xFFFD :: decodeLossy (rest.drop (n - 1))
    | .ok (c, n) => c :: decodeLossy (rest.drop n)
termination_by bytes => bytes.length
decreasing_by
  all_goals simp only [List.length_cons, List.length_drop]
  all_goals omega

end BlockSync.Text.Utf8
