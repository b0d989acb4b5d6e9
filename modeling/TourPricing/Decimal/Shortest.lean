import TourPricing.Decimal.Basic

namespace TourPricing.Decimal

/-- Where a number goes that lies halfway between its two neighbours. -/
inductive Tie where
  | away
  | even
deriving DecidableEq

/-- The value `significand * 2 ^ exponent` of a finite double without its sign. Below a power of
two the next smaller double is only half as far away as the next larger one. -/
structure Binary where
  significand : Nat
  exponent : Int
  halfGapBelow : Bool

def Binary.ofFloat (x : Float) : Binary :=
  let bits := x.toBits.toNat
  let fraction : Nat := bits % Nat.pow 2 52
  let scale : Nat := bits / Nat.pow 2 52 % Nat.pow 2 11
  if scale = 0 then ⟨fraction, -1074, false⟩
  else ⟨fraction + Nat.pow 2 52, (scale : Int) - 1075, fraction == 0 && scale > 1⟩

structure Ratio where
  num : Nat
  den : Nat

def Ratio.scale (r : Ratio) (base : Nat) (exponent : Int) : Ratio :=
  if exponent < 0 then ⟨r.num, r.den * Nat.pow base exponent.natAbs⟩
  else ⟨r.num * Nat.pow base exponent.natAbs, r.den⟩

/-- The place of the leading digit: `10 ^ (place - 1) ≤ r < 10 ^ place` for `r` above zero. -/
def Ratio.place (r : Ratio) : Int :=
  if r.den ≤ r.num then length (r.num / r.den)
  else 1 - length ((r.den + r.num - 1) / r.num - 1)

def Ratio.round (tie : Tie) (r : Ratio) : Nat :=
  let whole := r.num / r.den
  let twice := 2 * (r.num % r.den)
  if twice < r.den then whole
  else if twice > r.den then whole + 1
  else
    match tie with
    | .away => whole + 1
    | .even => whole + whole % 2

/-- The multiple of `10 ^ exponent` nearest to `b` among its two neighbours that read back as
`b`, if one does. Reading rounds to the nearest double, and a half to the even significand. -/
def Binary.onGrid (tie : Tie) (b : Binary) (exponent : Int) : Option Nat :=
  let quarters (n : Nat) : Ratio := ((Ratio.mk n 1).scale 2 (b.exponent - 2)).scale 10 (-exponent)
  let value := quarters (4 * b.significand)
  let low := quarters (4 * b.significand - if b.halfGapBelow then 1 else 2)
  let high := quarters (4 * b.significand + 2)
  let readsBack (n : Nat) : Bool :=
    let scaled := n * value.den
    if b.significand % 2 = 0 then low.num ≤ scaled && scaled ≤ high.num
    else low.num < scaled && scaled < high.num
  let below := value.num / value.den
  let nearest := value.round tie
  if readsBack nearest then some nearest
  else if readsBack below then some below
  else if readsBack (below + 1) then some (below + 1)
  else none

/-- The decimal with the fewest digits that reads back as the finite double `x`; of those, the
nearest one. -/
def shortest (tie : Tie) (x : Float) : Decimal :=
  let b := Binary.ofFloat x
  let negative := x.toBits >>> 63 == 1
  if b.significand = 0 then ⟨negative, 0, 0⟩
  else
    let place := ((Ratio.mk b.significand 1).scale 2 b.exponent).place
    let grids := (List.range 17).map fun (n : Nat) => place - (n : Int) - 1
    (grids.findSome? fun e => (b.onGrid tie e).map fun digits => Decimal.mk negative digits e).getD
      ⟨negative, b.significand, 0⟩

/-- The finite double `x` rounded to `places` digits after the point; a half goes to the even
neighbour. -/
def rounded (places : Nat) (x : Float) : Decimal :=
  let b := Binary.ofFloat x
  let r := ((Ratio.mk b.significand 1).scale 2 b.exponent).scale 10 places
  ⟨x.toBits >>> 63 == 1, r.round .even, -places⟩

end TourPricing.Decimal
