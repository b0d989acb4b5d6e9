import TourPricing.Decimal.Shortest

namespace TourPricing

/-- The decisions of a number format. The place of a number is the one of its leading digit,
counted from the point; numbers whose place is outside the limits get a power of ten. -/
structure Layout where
  lowest : Option Int
  highest : Option Int
  /-- Whole numbers without a power of ten end in `.0`. -/
  pointed : Bool
  /-- A power of ten above zero has a plus sign. -/
  plus : Bool
  /-- Where a double goes that lies halfway between two texts of the same length. -/
  tie : Decimal.Tie

/-- Never a power of ten, and no point in a whole number. -/
def Layout.plain : Layout := ⟨none, none, false, false, .away⟩

/-- A power of ten below `0.0001` and from `1e16` on. -/
def Layout.tagged : Layout := ⟨some (-3), some 16, true, false, .away⟩

namespace Decimal

/-- A decimal without trailing zeros, which stand for powers of ten. -/
def strip (d : Decimal) : Decimal :=
  if d.digits = 0 then ⟨d.negative, 0, 0⟩
  else
    let text := Nat.toDigits 10 d.digits
    let kept := (text.reverse.dropWhile (· == '0')).reverse
    ⟨d.negative, ofDigits kept, d.exponent + (text.length - kept.length : Nat)⟩

def withPoint (n places : Nat) : List Char :=
  let text := Nat.toDigits 10 n
  let padded := List.replicate (places + 1 - text.length) '0' ++ text
  let split := padded.length - places
  padded.take split ++ '.' :: padded.drop split

def sign (d : Decimal) : List Char :=
  if d.negative then ['-'] else []

/-- A decimal with all of its digits after the point, as many as its exponent says. -/
def fixed (d : Decimal) : String :=
  String.ofList (d.sign ++ withPoint d.digits d.exponent.natAbs)

def render (L : Layout) (d : Decimal) : String :=
  let d := d.strip
  let text := Nat.toDigits 10 d.digits
  let place := (text.length : Int) + d.exponent
  let positional := d.digits = 0 || (L.lowest.all (· ≤ place) && L.highest.all (place ≤ ·))
  let body :=
    if positional then
      if d.exponent < 0 then withPoint d.digits d.exponent.natAbs
      else text ++ List.replicate d.exponent.natAbs '0' ++ (if L.pointed then ['.', '0'] else [])
    else
      let lead := text.take 1 ++ (if text.length > 1 then '.' :: text.drop 1 else [])
      let power := place - 1
      let mark := if power < 0 then ['-'] else if L.plus then ['+'] else []
      lead ++ 'e' :: mark ++ Nat.toDigits 10 power.natAbs
  String.ofList (d.sign ++ body)

def renderFloat (L : Layout) (x : Float) : String :=
  if x.isNaN then "NaN"
  else if x.isInf then if x < 0 then "-inf" else "inf"
  else (shortest L.tie x).render L

def fixedFloat (places : Nat) (x : Float) : String :=
  if x.isNaN then "NaN"
  else if x.isInf then if x < 0 then "-inf" else "inf"
  else (rounded places x).fixed

end Decimal

end TourPricing
