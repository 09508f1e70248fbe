import BlockSync.Json

/-! Written JSON, one item a line and two blanks for each level. -/

namespace BlockSync.Json

def quoted (written : Text) : Text :=
  '"' :: written ++ ['"']

def newline (level : Nat) : Text :=
  '\n' :: List.replicate (2 * level) ' '

mutual

def print (level : Nat) : Json → Text
  | .null => "null"
  | .bool true => "true"
  | .bool false => "false"
  | .number written => written
  | .string written => quoted written
  | .array [] => "[]"
  | .array items =>
    '[' :: Text.joinWith "," (printItems (level + 1) items) ++ newline level ++ "]"
  | .object [] => "\x7b\x7d"
  | .object fields =>
    '{' :: Text.joinWith "," (printFields (level + 1) fields) ++ newline level ++ "\x7d"

def printItems (level : Nat) : List Json → List Text
  | [] => []
  | v :: rest => (newline level ++ print level v) :: printItems level rest

def printFields (level : Nat) : List (Text × Json) → List Text
  | [] => []
  | (k, v) :: rest =>
    (newline level ++ quoted k ++ ": " ++ print level v) :: printFields level rest

end

def pretty (v : Json) : Text :=
  print 0 v

end BlockSync.Json
