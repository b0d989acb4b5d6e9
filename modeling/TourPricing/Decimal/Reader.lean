import TourPricing.Decimal.Basic

namespace TourPricing.Decimal

def isNumeral (s : List Char) : Bool :=
  !s.isEmpty && s.all Char.isDigit

def readSign : List Char → Bool × List Char
  | '+' :: s => (false, s)
  | '-' :: s => (true, s)
  | s => (false, s)

/-- A natural number below `limit`, with an optional plus sign. -/
def readNat (limit : Nat) (s : List Char) : Option Nat :=
  let digits := match s with
    | '+' :: r => r
    | _ => s
  if isNumeral digits && ofDigits digits < limit then some (ofDigits digits) else none

def readInt (s : List Char) : Option Int :=
  let (negative, digits) := readSign s
  if isNumeral digits then
    some (if negative then -(ofDigits digits : Int) else ofDigits digits)
  else none

def readExponent : List Char → Option Int
  | [] => some 0
  | c :: s => if c = 'e' ∨ c = 'E' then readInt s else none

/-- A decimal number without its sign; the point may stand at either end of the digits. -/
def readUnsigned (s : List Char) : Option (Nat × Int) :=
  let whole := s.takeWhile Char.isDigit
  let (fraction, rest) := match s.dropWhile Char.isDigit with
    | '.' :: r => (r.takeWhile Char.isDigit, r.dropWhile Char.isDigit)
    | r => ([], r)
  if whole.isEmpty && fraction.isEmpty then none
  else (readExponent rest).map fun e => (ofDigits (whole ++ fraction), e - fraction.length)

/-- A double: a decimal number, or in any case of letters `inf`, `infinity` or `nan`. -/
def readFloat (s : List Char) : Option Float :=
  let (negative, body) := readSign s
  let signed (x : Float) := if negative then -x else x
  let name := String.ofList (body.map Char.toLower)
  if name = "inf" ∨ name = "infinity" then some (signed (1 / 0))
  else if name = "nan" then some (0 / 0)
  else (readUnsigned body).map fun (digits, exponent) => toFloat ⟨negative, digits, exponent⟩

end TourPricing.Decimal
