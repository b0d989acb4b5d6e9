import TourPricing.Route
import TourPricing.Search.Rule

namespace TourPricing

/-- A walk from the source, with the cost of its edges and its trail. -/
structure Label (α : Type) where
  cost : α
  /-- The legs of the walk, the last one first. -/
  back : List Leg
  trail : Trail

namespace Label

variable {α : Type} [Scalar α]

def start (n source : Nat) : Label α :=
  ⟨Scalar.ofNat 0, [], Trail.start n source⟩

def extend (label : Label α) (memory : Nat) (leg : Leg) (cost : α) : Label α :=
  ⟨label.cost + cost, leg :: label.back, label.trail.visit memory leg.head.vertex⟩

def route (label : Label α) : Route :=
  ⟨label.back.reverse⟩

/-- Whether a label makes another one needless. -/
def covers (rule : VisitRule) (a b : Label α) : Bool :=
  a.cost ≤ b.cost && rule.dominates a.trail b.trail

def rankLE (a b : Label α) : Bool :=
  Scalar.rankLE a.cost b.cost

end Label

namespace Bucket

variable {α : Type} [Scalar α]

/-- The position of the last label of greatest cost in a list of which the labels from position
`next` on are given; of those before it, `best` is the one. -/
def costliestFrom (best : Label α) (position : Nat) : (next : Nat) → List (Label α) → Nat
  | _, [] => position
  | next, label :: rest =>
    if best.rankLE label then costliestFrom label next (next + 1) rest
    else costliestFrom best position (next + 1) rest

def costliest : List (Label α) → Nat
  | [] => 0
  | label :: rest => costliestFrom label 0 1 rest

/-- A list without the element at a position, whose place the last element takes. -/
def swapRemove {β : Type} (l : List β) (position : Nat) : List β :=
  match l.getLast? with
  | none => []
  | some last => (l.set position last).dropLast

/-- A bucket after a label is offered to it, and whether the limit cost a label. -/
def insert (rule : VisitRule) (limit : Nat) (bucket : List (Label α)) (label : Label α) :
    List (Label α) × Bool :=
  if bucket.any (·.covers rule label) then (bucket, false)
  else
    let bucket := bucket.filter (fun old => !label.covers rule old) ++ [label]
    if max limit 1 < bucket.length then (swapRemove bucket (costliest bucket), true)
    else (bucket, false)

end Bucket

end TourPricing
