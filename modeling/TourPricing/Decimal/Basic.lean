namespace TourPricing

/-- The number `± digits * 10 ^ exponent`. -/
structure Decimal where
  negative : Bool
  digits : Nat
  exponent : Int
deriving DecidableEq, Inhabited

namespace Decimal

/-- How many digits the decimal form of `n` has. -/
def length (n : Nat) : Nat :=
  (Nat.toDigits 10 n).length

def ofDigits (s : List Char) : Nat :=
  s.foldl (fun n c => 10 * n + (c.toNat - '0'.toNat)) 0

def ofNat (n : Nat) : Decimal :=
  ⟨false, n, 0⟩

/-- The double nearest to a decimal number, infinite if the number is out of range. Decimals that
are certainly too large or too small are decided without computing their power of ten. -/
def toFloat (d : Decimal) : Float :=
  let size := (length d.digits : Int) + d.exponent
  let x : Float :=
    if d.digits = 0 then 0
    else if size > 310 then 1 / 0
    else if size < -330 then 0
    else Float.ofScientific d.digits (d.exponent < 0) d.exponent.natAbs
  if d.negative then -x else x

end Decimal

end TourPricing
