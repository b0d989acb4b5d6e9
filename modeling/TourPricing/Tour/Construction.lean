import TourPricing.Random.Stream
import TourPricing.Tour.Basic

namespace TourPricing

/-- Chooses one of `k` candidates, on a state that it may change. -/
abbrev Chooser (σ : Type) := (k : Nat) → 0 < k → σ → Fin k × σ

namespace Network

/-- The edges to follow next, nearest first and then by vertex. -/
def candidates (N : Network) (current : Nat) (visited : List Nat) (elapsed : Nat) : List Edge :=
  ((N.outEdges current).filter fun e =>
    !visited.contains e.target && elapsed + e.travelTime ≤ N.horizon).mergeSort fun a b =>
      a.travelTime < b.travelTime || (a.travelTime == b.travelTime && a.target ≤ b.target)

/-- One of the first three candidates. A single candidate is taken without a choice. -/
def chooseNext {σ : Type} (choose : Chooser σ) (s : σ) : List Edge → Option (Nat × σ)
  | [] => none
  | [e] => some (e.target, s)
  | e :: f :: rest =>
    let offered := (e :: f :: rest).take 3
    let (i, s) := choose offered.length (by simp [offered]) s
    some (offered[i].target, s)

/-- The edges to follow next. There is no answer if the arrival of some edge to a new vertex is no
time. -/
def candidates? (N : Network) (current : Nat) (visited : List Nat) (elapsed : Nat) :
    Option (List Edge) :=
  let ahead := (N.outEdges current).filter fun e => !visited.contains e.target
  if ahead.all fun e => (addTimes? elapsed e.travelTime).isSome then
    some (N.candidates current visited elapsed)
  else none

/-- Extends a walk, which is listed with its last vertex first, by at most `steps` vertices. Time
passes as on the first edge between two vertices. -/
def extendWalk? {σ : Type} (N : Network) (choose : Chooser σ) :
    (steps : Nat) → (current : Nat) → (earlier : List Nat) → (elapsed : Nat) → σ →
      Option (List Nat)
  | 0, current, earlier, _, _ => some (current :: earlier)
  | steps + 1, current, earlier, elapsed, s => do
    match chooseNext choose s (← N.candidates? current (current :: earlier) elapsed) with
    | none => some (current :: earlier)
    | some (next, s) =>
      let time := ((N.findEdge current next).map (·.travelTime)).getD 0
      N.extendWalk? choose steps next (current :: earlier) (← addTimes? elapsed time) s

/-- A walk from the source, unless an arrival on the way is no time. -/
def nearestWalk? {σ : Type} (N : Network) (choose : Chooser σ) (s : σ) : Option (List Nat) :=
  (N.extendWalk? choose (N.dimension - 1) N.source [] 0 s).map List.reverse

end Network

/-- Ways to build a tour. There is no answer if something comes up on the way that does not exist;
an answer is the tour that is built. -/
class Construction (H : Type) where
  name : H → String
  construct : H → Network → Tour
  construct? : H → Network → Option Tour
  construct_eq {h : H} {N : Network} {T : Tour} : construct? h N = some T → construct h N = T

inductive NearestNeighbor where
  | deterministic
  | randomized (seed : UInt64)
deriving DecidableEq

namespace NearestNeighbor

def name : NearestNeighbor → String
  | .deterministic => "NearestNeighbor"
  | .randomized _ => "NearestNeighbor-Randomized"

/-- The number of draws after which a choice between candidates is given up. -/
def patience : Nat := 1000

/-- The walk that is built, for a seed with the choices that it comes to. -/
def walk? (h : NearestNeighbor) (N : Network) : Option (List Nat) :=
  match h with
  | .deterministic => N.nearestWalk? (fun _ hk s => (⟨0, hk⟩, s)) ()
  | .randomized seed =>
    N.nearestWalk? (fun k hk g => g.below k hk patience) (Random.Generator.seeded seed)

/-- Evaluates the walk that is built; vertices that could not be reached stay out. -/
def construct (h : NearestNeighbor) (N : Network) : Tour :=
  Tour.evaluate N ((h.walk? N).getD [N.source]) h.name

/-- Evaluates the walk that is built. There is no answer if a vertex on the way does not exist, or
has an edge that does not exist or leads to no vertex, or if a sum of times does not fit. -/
def construct? (h : NearestNeighbor) (N : Network) : Option Tour := do
  let walk ← h.walk? N
  let sound (v : Nat) := N.isSound v && (N.outEdges v).all (·.target < N.dimension)
  if N.source < N.dimension && (walk.take (N.dimension - 1)).all sound then
    Tour.evaluate? N walk h.name
  else none

instance : Construction NearestNeighbor where
  name := name
  construct := construct
  construct? := construct?
  construct_eq {h N T} hT := by
    rw [construct?, Option.bind_eq_bind, Option.bind_eq_some_iff] at hT
    obtain ⟨walk, hwalk, hT⟩ := hT
    rw [construct, hwalk, Option.getD_some]
    exact Tour.evaluate_of_evaluate? (Option.ite_none_right_eq_some.1 hT).2

end NearestNeighbor

namespace Tour

def improves (t best : Tour) : Bool :=
  (t.feasible && !best.feasible) || (t.feasible == best.feasible && t.cheaper best) ||
    (!t.feasible && !best.feasible && best.vertices.length < t.vertices.length)

def bestOf? (runs : List Tour) : Option Tour :=
  runs.foldl (fun best t =>
    match best with
    | none => some t
    | some b => if t.improves b then some t else some b) none

end Tour

/-- Several constructions, of which the best tour counts. -/
structure MultiStart (H : Type := NearestNeighbor) where
  parts : List H

namespace MultiStart

def name : String := "MultiStart"

def seeded (seed : UInt64) (starts : Nat) : MultiStart :=
  ⟨.deterministic :: (List.range starts).map fun i => .randomized (seed + i.toUInt64)⟩

def standard : MultiStart :=
  seeded 1 8

section

variable {H : Type} [Construction H]

/-- The tours that the parts build. -/
def runs (m : MultiStart H) (N : Network) : List Tour :=
  m.parts.map (Construction.construct · N)

/-- The best tour of all parts; without parts, the tour that stays at the source. -/
def construct (m : MultiStart H) (N : Network) : Tour :=
  { (Tour.bestOf? (m.runs N)).getD (Tour.evaluate N [N.source] name) with algorithm := name }

theorem runs_eq {m : MultiStart H} {N : Network} {runs : List Tour}
    (h : m.parts.mapM (Construction.construct? · N) = some runs) : m.runs N = runs := by
  rw [MultiStart.runs]
  generalize m.parts = parts at h
  induction parts generalizing runs with
  | nil => exact Option.some.inj h
  | cons part rest ih =>
    rw [List.mapM_cons] at h
    obtain ⟨T, hT, h⟩ := Option.bind_eq_some_iff.1 h
    obtain ⟨others, hothers, h⟩ := Option.bind_eq_some_iff.1 h
    obtain rfl := Option.some.inj h
    rw [List.map_cons, Construction.construct_eq hT, ih hothers]

/-- The best tour of all parts, unless one of them has no answer. -/
def construct? (m : MultiStart H) (N : Network) : Option Tour := do
  let runs ← m.parts.mapM (Construction.construct? · N)
  let best ← (Tour.bestOf? runs).or (Tour.evaluate? N [N.source] name)
  pure { best with algorithm := name }

instance : Construction (MultiStart H) where
  name _ := name
  construct := construct
  construct? := construct?
  construct_eq {m N T} hT := by
    obtain ⟨runs, hruns, hT⟩ := Option.bind_eq_some_iff.1 hT
    obtain ⟨best, hbest, hT⟩ := Option.bind_eq_some_iff.1 hT
    obtain rfl := Option.some.inj hT
    rw [construct, runs_eq hruns]
    cases h : Tour.bestOf? runs with
    | some t =>
      rw [h, Option.some_or] at hbest
      rw [Option.getD_some, Option.some.inj hbest]
    | none =>
      rw [h, Option.none_or] at hbest
      rw [Option.getD_none, Tour.evaluate_of_evaluate? hbest]

end

end MultiStart

end TourPricing
