import TourPricing.Search.VertexSet

namespace TourPricing

/-- What a walk remembers of its visits. -/
structure Trail where
  /-- The last visits, oldest first, the current one at the end. -/
  recent : List Nat
  visited : VertexSet
deriving DecidableEq, Inhabited

/-- A rule about visits. If `a` dominates `b`, then whatever may follow `b` may follow `a`. The
return to the source is no matter of the rule. -/
structure VisitRule where
  lookback : Nat
  admits : Trail → Nat → Bool
  dominates : Trail → Trail → Bool

/-- How many visits a trail keeps under a rule: at least the current one. -/
def VisitRule.memory (rule : VisitRule) : Nat :=
  max rule.lookback 1

def Trail.start (n source : Nat) : Trail :=
  ⟨[source], (VertexSet.empty n).insert source⟩

/-- The trail after one more visit, of which at most `memory` are kept as recent ones. -/
def Trail.visit (t : Trail) (memory v : Nat) : Trail :=
  let recent := t.recent ++ [v]
  ⟨if memory < recent.length then recent.drop 1 else recent, t.visited.insert v⟩

/-- The restrictions that pricing puts on walks. -/
inductive Restriction where
  /-- None of the last `lookback` vertices is entered again. -/
  | acyclic (lookback : Nat)
  /-- No vertex is entered again. -/
  | holeFree
  /-- The vertex before the current one is not entered again. -/
  | twoCycleFree
deriving DecidableEq, Inhabited

namespace Restriction

def lookback : Restriction → Nat
  | .acyclic k => max k 1
  | .holeFree => 1
  | .twoCycleFree => 2

def admits (r : Restriction) (t : Trail) (next : Nat) : Bool :=
  match r with
  | .acyclic _ => !t.recent.contains next
  | .holeFree => !t.visited.contains next
  | .twoCycleFree => !(t.recent.reverse.take 2).contains next

/-- Whether a trail leaves every way open that another one leaves open. The restriction on all
visits compares the sets of visits, the others the recent visits. -/
def dominates (r : Restriction) (a b : Trail) : Bool :=
  match r with
  | .holeFree => a.visited.isSubset b.visited
  | .acyclic _ | .twoCycleFree => a.recent == b.recent

def rule (r : Restriction) : VisitRule :=
  ⟨r.lookback, r.admits, r.dominates⟩

/-- Whether a vertex may be entered. There is no answer for a trail without a current vertex, or for
a vertex beyond the set of visits, where the restriction has to look at them. -/
def admits? (r : Restriction) (t : Trail) (next : Nat) : Option Bool :=
  let known := match r with
    | .acyclic _ => true
    | .holeFree => t.visited.covers next
    | .twoCycleFree => !t.recent.isEmpty
  if known then some (r.admits t next) else none

end Restriction

/-- The rule that admits every visit; it tells trails apart by their recent visits. -/
def VisitRule.unrestricted : VisitRule :=
  ⟨1, fun _ _ => true, fun a b => a.recent == b.recent⟩

end TourPricing
