import BlockSync.Text.Utf8

/-! Glob patterns over the bytes of a path. Apart from doubled stars and classes nothing matches a
slash. A token leaves some of the rests of what it is matched against; a pattern matches if it can
leave nothing. -/

namespace BlockSync

open Text.Utf8 (Bytes)

namespace Glob

inductive Token
  | byte (b : UInt8)
  | any
  | star
  /-- Doubled stars at the start: any directories, or none. -/
  | leading
  /-- Doubled stars between slashes: a slash, or any directories between two. -/
  | between
  /-- Doubled stars at the end: all that lies below. -/
  | beneath
  | oneOf (negated : Bool) (ranges : List (UInt8 × UInt8))
  | choice (branches : List (List Token))

def slash : UInt8 := 47

def afterSlashes : Bytes → List Bytes
  | [] => []
  | b :: rest => if b = slash then rest :: afterSlashes rest else afterSlashes rest

/-- All rests, the whole included. -/
def rests : Bytes → List Bytes
  | [] => [[]]
  | b :: rest => (b :: rest) :: rests rest

def restsWithin : Bytes → List Bytes
  | [] => [[]]
  | b :: rest => (b :: rest) :: if b = slash then [] else restsWithin rest

def onByte (test : UInt8 → Bool) : Bytes → List Bytes
  | [] => []
  | b :: rest => if test b then [rest] else []

mutual

def isEmpty : List Token → Bool
  | [] => true
  | t :: more => t.saysNothing && isEmpty more

def allEmpty : List (List Token) → Bool
  | [] => true
  | branch :: more => isEmpty branch && allEmpty more

def Token.saysNothing : Token → Bool
  | .choice branches => allEmpty branches
  | _ => false

end

mutual

def Token.leave (bytes : Bytes) : Token → List Bytes
  | .byte b => onByte (· == b) bytes
  | .any => onByte (· != slash) bytes
  | .star => restsWithin bytes
  | .leading => bytes :: afterSlashes bytes
  | .between =>
    match bytes with
    | [] => []
    | b :: rest => if b = slash then rest :: afterSlashes rest else []
  | .beneath =>
    match bytes with
    | [] => []
    | b :: rest => if b = slash then rests rest else []
  | .oneOf negated ranges =>
    onByte (fun b => ranges.any (fun r => r.1 ≤ b && b ≤ r.2) != negated) bytes
  | .choice branches =>
    if allEmpty branches then [bytes] else leaveSome bytes branches

def leaveAll (bytes : Bytes) : List Token → List Bytes
  | [] => [bytes]
  | t :: more => ((t.leave bytes).flatMap fun rest => leaveAll rest more).eraseDups

def leaveSome (bytes : Bytes) : List (List Token) → List Bytes
  | [] => []
  | branch :: more =>
    if isEmpty branch then leaveSome bytes more
    else leaveAll bytes branch ++ leaveSome bytes more

end

end Glob

abbrev Glob := List Glob.Token

namespace Glob

def accepts (glob : Glob) (bytes : Bytes) : Bool :=
  match glob with
  | [.leading] => true
  | _ => (leaveAll bytes glob).contains []

end Glob

end BlockSync
