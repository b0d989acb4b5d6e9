import TourPricing.Network.Basic
import TourPricing.Scalar

namespace TourPricing

/-- One price for each edge; edges beyond the list have price zero. -/
structure Duals (α : Type) where
  values : List α

namespace Duals

variable {α : Type} [Scalar α]

def zeros (n : Nat) : Duals α :=
  ⟨List.replicate n (Scalar.ofNat 0)⟩

def get (d : Duals α) (e : Nat) : α :=
  d.values.getD e (Scalar.ofNat 0)

/-- The prices with the one of `e` replaced; the list grows to have room for it. -/
def set (d : Duals α) (e : Nat) (x : α) : Duals α :=
  ⟨(d.values ++ List.replicate (e + 1 - d.values.length) (Scalar.ofNat 0)).set e x⟩

def isFinite (d : Duals α) : Bool :=
  d.values.all Scalar.isFinite

/-- The point on the line from `other` to `d` at the fraction `alpha`. -/
def interpolate (d : Duals α) (alpha : α) (other : Duals α) : Duals α :=
  ⟨(List.range (max d.values.length other.values.length)).map fun e =>
    alpha * d.get e + (Scalar.ofNat 1 - alpha) * other.get e⟩

end Duals

/-- What a pricing round looks for. -/
inductive CostKind where
  /-- Columns that improve a feasible master. -/
  | reduced
  /-- Columns that make an infeasible master feasible. -/
  | farkas
deriving DecidableEq, Inhabited

variable {α : Type} [Scalar α]

/-- The cost of an edge: travel time less price, or in a search for feasibility the price alone. -/
def CostKind.cost (kind : CostKind) (N : Network) (d : Duals α) (e : Nat) : α :=
  match kind with
  | .reduced => Scalar.ofNat (N.travelTime e) - d.get e
  | .farkas => -d.get e

/-- The cost of an edge. A cost with a travel time needs the edge to exist. -/
def CostKind.cost? (kind : CostKind) (N : Network) (d : Duals α) (e : Nat) : Option α :=
  match kind with
  | .reduced => (N.edge? e).map fun _ => kind.cost N d e
  | .farkas => some (kind.cost N d e)

end TourPricing
