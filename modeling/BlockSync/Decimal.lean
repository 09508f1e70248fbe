import BlockSync.Text

/-! Decimal numbers as they are written, with a fraction and a power of ten. -/

namespace BlockSync.Decimal

def digitsValue (digits : Text) : Nat :=
  digits.foldl (fun n c => 10 * n + (c.toNat - 48)) 0

/-- Whether a written number rounds to a double that is not infinite. -/
def isFinite (written : Text) : Bool :=
  let unsigned := written.dropWhile fun c => c = '-' || c = '+'
  let mantissa := unsigned.takeWhile fun c => c != 'e' && c != 'E'
  let power := unsigned.drop (mantissa.length + 1)
  let fraction := (mantissa.dropWhile (· != '.')).length - 1
  let digits := (mantissa.filter Char.isDigit).dropWhile (· = '0')
  let exponent : Int :=
    match power with
    | '-' :: power => -(digitsValue power : Int)
    | '+' :: power => digitsValue power
    | power => digitsValue power
  let magnitude : Int := digits.length + exponent - fraction
  if digits = [] ∨ magnitude < 309 then true
  else if 309 < magnitude then false
  else
    let scaled := digitsValue digits * Nat.pow 10 (309 - digits.length)
    let bound := (Nat.pow 2 1024 - Nat.pow 2 970) * Nat.pow 10 (digits.length - 309)
    scaled < bound

end BlockSync.Decimal
