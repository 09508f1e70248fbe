import BlockSync.Text.Utf8

/-! Lines with their terminators. Cutting bytes into lines loses nothing: the lines put together
again are the bytes. -/

namespace BlockSync

open Text (Utf8.Bytes)

structure Line where
  text : Text
  terminator : Text
deriving DecidableEq, Repr

namespace Line

def raw (line : Line) : Text :=
  line.text ++ line.terminator

/-- Splits the terminator off: a newline, with the carriage return right before it if any. -/
def ofRaw (raw : Text) : Line :=
  match Text.cutLast '\n' raw with
  | some (head, []) =>
    match Text.cutLast '\r' head with
    | some (text, []) => ⟨text, "\r\n"⟩
    | _ => ⟨head, "\n"⟩
  | _ => ⟨raw, []⟩

/-- The bytes cut behind each newline. -/
def chunks : Utf8.Bytes → List Utf8.Bytes
  | [] => []
  | b :: rest =>
    if b = 10 then [b] :: chunks rest
    else
      match chunks rest with
      | [] => [[b]]
      | chunk :: more => (b :: chunk) :: more

/-- The lines in front of the first ill-formed one, and what is wrong with it. -/
structure Reading where
  lines : List Line
  fault : Option Text.Utf8.Fault
deriving DecidableEq, Repr

def readChunks : List Utf8.Bytes → Reading
  | [] => ⟨[], none⟩
  | chunk :: more =>
    match Text.Utf8.decode chunk with
    | .error fault => ⟨[], some fault⟩
    | .ok raw =>
      let rest := readChunks more
      ⟨ofRaw raw :: rest.lines, rest.fault⟩

def read (bytes : Utf8.Bytes) : Reading :=
  readChunks (chunks bytes)

end Line

end BlockSync
