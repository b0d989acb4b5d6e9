namespace TourPricing

class Scalar (α : Type) extends Add α, Sub α, Mul α, Div α, Neg α, LE α, LT α where
  decLE : DecidableLE α
  decLT : DecidableLT α
  ofNat : Nat → α
  /-- The decimal fraction `m / 10 ^ k`. -/
  ofDecimal (m k : Nat) : α
  isFinite : α → Bool
  /-- A total order that ranks everything, undefined results last. -/
  rankLE : α → α → Bool
  rankLE_trans : ∀ a b c, rankLE a b = true → rankLE b c = true → rankLE a c = true
  rankLE_total : ∀ a b, (rankLE a b || rankLE b a) = true

attribute [reducible, instance] Scalar.decLE Scalar.decLT

namespace Scalar

variable {α : Type} [Scalar α]

def min (a b : α) : α :=
  if a ≤ b then a else if b ≤ b then b else a

def max (a b : α) : α :=
  if b ≤ a then a else if b ≤ b then b else a

def abs (a : α) : α :=
  if a < ofNat 0 then -a else a

/-- The sum from left to right, starting at zero. -/
def sum (l : List α) : α :=
  l.foldl (· + ·) (ofNat 0)

/-- The scale of a relative tolerance around `a`: its size, but at least one. -/
def magnitude (a : α) : α :=
  max (abs a) (ofNat 1)

/-- How far below zero a cost has to be to count as negative. -/
def costTolerance : α :=
  ofDecimal 1 6

/-- The least of the numbers seen so far, once `a` is seen as well; `none` means none was seen. -/
def least (seen : Option α) (a : α) : Option α :=
  match seen with
  | some m => some (min m a)
  | none => if a ≤ a then some a else none

instance : Scalar Rat where
  decLE := inferInstance
  decLT := inferInstance
  ofNat n := (n : Rat)
  ofDecimal m k := mkRat m (Nat.pow 10 k)
  isFinite _ := true
  rankLE a b := decide (a ≤ b)
  rankLE_trans a b c hab hbc :=
    decide_eq_true (Rat.le_trans (of_decide_eq_true hab) (of_decide_eq_true hbc))
  rankLE_total a b := by simpa using Rat.le_total

/-- The place of a double in the total order: both zeros share one place and undefined results
share the last. -/
def place (x : Float) : UInt64 :=
  let bits := x.toBits
  let size := bits &&& 0x7FFFFFFFFFFFFFFF
  if size > 0x7FF0000000000000 then 0xFFFFFFFFFFFFFFFF
  else if bits == size then 0x8000000000000000 + size
  else 0x8000000000000000 - size

instance : Scalar Float where
  decLE := inferInstance
  decLT := inferInstance
  ofNat := Float.ofNat
  ofDecimal m k := Float.ofScientific m true k
  isFinite := Float.isFinite
  rankLE a b := decide (place a ≤ place b)
  rankLE_trans a b c hab hbc :=
    decide_eq_true (UInt64.le_trans (of_decide_eq_true hab) (of_decide_eq_true hbc))
  rankLE_total a b := by simpa using UInt64.le_total (place a) (place b)

end Scalar

end TourPricing
