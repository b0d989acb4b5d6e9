import Mathlib.Order.WithBot
import TourPricing.Network.Draft
import TourPricing.Proofs.Expansion.Feasibility
import TourPricing.Tour.Construction

namespace TourPricing

variable {N : Network} {runs : List Tour} {t u best : Tour}

namespace Tour

/-- The place of a tour in the order of costs, in which tours without a duration come last. -/
def rank (t : Tour) : WithTop Nat :=
  t.cost

theorem cheaper_iff : t.cheaper u = true ↔ t.rank < u.rank := by
  rw [cheaper, rank, rank]
  cases t.cost with
  | none => exact iff_of_false (by simp) not_top_lt
  | some c =>
    cases u.cost with
    | none => exact iff_of_true rfl (WithTop.coe_lt_top c)
    | some d => exact decide_eq_true_iff.trans WithTop.coe_lt_coe.symm

/-- A feasible tour of a list, cheaper than the feasible ones before it and no dearer than those
after it. -/
def IsFirstCheapest (runs : List Tour) (t : Tour) : Prop :=
  t.feasible = true ∧ ∃ before after, runs = before ++ t :: after ∧
    (∀ u ∈ before, u.feasible = true → t.rank < u.rank) ∧
    ∀ u ∈ after, u.feasible = true → t.rank ≤ u.rank

namespace IsFirstCheapest

theorem le (h : IsFirstCheapest runs t) (hu : u ∈ runs) (hfeasible : u.feasible = true) :
    t.rank ≤ u.rank := by
  obtain ⟨_, before, after, rfl, hbefore, hafter⟩ := h
  rcases List.mem_append.1 hu with hu | hu
  · exact (hbefore u hu hfeasible).le
  · rcases List.mem_cons.1 hu with rfl | hu
    · exact le_rfl
    · exact hafter u hu hfeasible

theorem of_forall_infeasible (hruns : ∀ u ∈ runs, u.feasible = false) (ht : t.feasible = true) :
    IsFirstCheapest (runs ++ [t]) t := by
  refine ⟨ht, runs, [], rfl, fun u hu hfeasible => ?_, fun u hu => absurd hu List.not_mem_nil⟩
  rw [hruns u hu] at hfeasible
  cases hfeasible

theorem replace (h : IsFirstCheapest runs best) (ht : t.feasible = true)
    (hlt : t.rank < best.rank) : IsFirstCheapest (runs ++ [t]) t :=
  ⟨ht, runs, [], rfl, fun _ hu hfeasible => hlt.trans_le (h.le hu hfeasible),
    fun _ hu => absurd hu List.not_mem_nil⟩

theorem keep (h : IsFirstCheapest runs best) (hle : t.feasible = true → best.rank ≤ t.rank) :
    IsFirstCheapest (runs ++ [t]) best := by
  obtain ⟨hbest, before, after, rfl, hbefore, hafter⟩ := h
  refine ⟨hbest, before, after ++ [t], ?_, hbefore, fun u hu hfeasible => ?_⟩
  · rw [List.append_assoc, List.cons_append]
  · rcases List.mem_append.1 hu with hu | hu
    · exact hafter u hu hfeasible
    · obtain rfl := List.mem_singleton.1 hu
      exact hle hfeasible

end IsFirstCheapest

theorem improves_of_feasible (h : best.feasible = true) :
    t.improves best = (t.feasible && t.cheaper best) := by
  simp [improves, h]

theorem improves_of_infeasible (h : best.feasible = false) (ht : t.feasible = true) :
    t.improves best = true := by
  rw [improves, h, ht]
  rfl

theorem bestOf?_concat (runs : List Tour) (t : Tour) : bestOf? (runs ++ [t]) =
    some ((bestOf? runs).elim t fun best => if t.improves best then t else best) := by
  rw [bestOf?, List.foldl_append, List.foldl_cons, List.foldl_nil, ← bestOf?]
  cases bestOf? runs with
  | none => rfl
  | some best => exact (apply_ite some _ _ _).symm

theorem bestOf?_eq_none_iff : bestOf? runs = none ↔ runs = [] := by
  rcases List.eq_nil_or_concat runs with rfl | ⟨before, t, rfl⟩
  · exact iff_of_true rfl rfl
  · rw [List.concat_eq_append, bestOf?_concat]
    simp

/-- What is known of the tour that is kept: it is one of the tours, no tour is feasible unless it
is, and if it is feasible it is the first of the cheapest. -/
structure Keeps (runs : List Tour) (best : Tour) : Prop where
  mem : best ∈ runs
  infeasible : best.feasible = false → ∀ t ∈ runs, t.feasible = false
  cheapest : best.feasible = true → IsFirstCheapest runs best

namespace Keeps

theorem single (t : Tour) : Keeps [t] t := by
  constructor
  case mem => exact List.mem_singleton_self t
  case infeasible => exact fun h u hu => List.mem_singleton.1 hu ▸ h
  case cheapest => exact .of_forall_infeasible fun u hu => absurd hu List.not_mem_nil

theorem concat_of_improves (h : Keeps runs best) (himproves : t.improves best = true) :
    Keeps (runs ++ [t]) t := by
  constructor
  case mem => exact List.mem_append_right runs (List.mem_singleton_self t)
  case infeasible =>
    intro ht
    have hbest : best.feasible = false := by
      rw [← Bool.not_eq_true]
      intro hbest
      rw [improves_of_feasible hbest, ht] at himproves
      cases himproves
    exact List.forall_mem_append.2 ⟨h.infeasible hbest, List.forall_mem_singleton.2 ht⟩
  case cheapest =>
    intro ht
    cases hbest : best.feasible with
    | false => exact .of_forall_infeasible (h.infeasible hbest) ht
    | true =>
      rw [improves_of_feasible hbest, Bool.and_eq_true] at himproves
      exact (h.cheapest hbest).replace ht (cheaper_iff.1 himproves.2)

theorem concat_of_not_improves (h : Keeps runs best) (himproves : ¬ t.improves best = true) :
    Keeps (runs ++ [t]) best := by
  constructor
  case mem => exact List.mem_append_left [t] h.mem
  case infeasible =>
    intro hbest
    have ht : t.feasible = false := by
      rw [← Bool.not_eq_true]
      exact fun ht => himproves (improves_of_infeasible hbest ht)
    exact List.forall_mem_append.2 ⟨h.infeasible hbest, List.forall_mem_singleton.2 ht⟩
  case cheapest =>
    intro hbest
    apply (h.cheapest hbest).keep
    intro ht
    rw [improves_of_feasible hbest, ht, Bool.true_and, cheaper_iff] at himproves
    exact not_lt.1 himproves

theorem feasible_iff (h : Keeps runs best) :
    best.feasible = true ↔ ∃ t ∈ runs, t.feasible = true := by
  constructor
  · exact fun hbest => ⟨best, h.mem, hbest⟩
  · rintro ⟨t, ht, hfeasible⟩
    rw [← Bool.not_eq_false]
    intro hbest
    rw [h.infeasible hbest t ht] at hfeasible
    cases hfeasible

end Keeps

/-- Whatever tours are compared, the one that is kept is the first of the cheapest feasible ones, if
there are any. -/
theorem keeps_of_bestOf? (h : bestOf? runs = some best) : Keeps runs best := by
  induction runs using List.reverseRecOn generalizing best with
  | nil => cases h
  | append_singleton runs t ih =>
    rw [bestOf?_concat] at h
    obtain rfl := Option.some.inj h
    cases hbest : bestOf? runs with
    | none =>
      obtain rfl := bestOf?_eq_none_iff.1 hbest
      exact .single t
    | some best =>
      rw [Option.elim_some]
      split
      · rename_i himproves
        exact (ih hbest).concat_of_improves himproves
      · rename_i himproves
        exact (ih hbest).concat_of_not_improves himproves

/-- In a checked network no tour stays at the source: there is no edge from it to itself. -/
theorem feasible_evaluate_source (hN : N.WellFormed) (algorithm : String) :
    (evaluate N [N.source] algorithm).feasible = false := by
  cases hedges : N.tourEdges [N.source] with
  | error reason => rw [evaluate, hedges]
  | ok edges =>
    obtain ⟨rest, hrest, hcircuit⟩ := Network.exists_circuit hN hedges
    obtain rfl : [] = rest := (List.cons.inj hrest).2
    obtain ⟨e, others, rfl, hsource, hothers⟩ := hcircuit.exists_cons
    obtain ⟨htarget, _⟩ := List.cons.inj hcircuit.targets
    have hmem := hcircuit.mem e List.mem_cons_self
    exact absurd (hsource.trans htarget.symm) (hN.edge_ok e hmem).2.2.1

end Tour

namespace MultiStart

variable {H : Type} [Construction H]

theorem runs_eq_nil_iff {m : MultiStart H} : m.runs N = [] ↔ m.parts = [] :=
  List.map_eq_nil_iff

theorem exists_bestOf? {m : MultiStart H} (h : m.parts ≠ []) (N : Network) :
    ∃ best, Tour.bestOf? (m.runs N) = some best ∧
      m.construct N = { best with algorithm := name } := by
  cases hbest : Tour.bestOf? (m.runs N) with
  | none => exact absurd (runs_eq_nil_iff.1 (Tour.bestOf?_eq_none_iff.1 hbest)) h
  | some best =>
    refine ⟨best, rfl, ?_⟩
    rw [construct, hbest]
    rfl

theorem exists_keeps {m : MultiStart H} (h : m.parts ≠ []) (N : Network) :
    ∃ best, Tour.Keeps (m.runs N) best ∧ m.construct N = { best with algorithm := name } := by
  obtain ⟨best, hbest, heq⟩ := exists_bestOf? h N
  exact ⟨best, Tour.keeps_of_bestOf? hbest, heq⟩

theorem construct?_eq {m : MultiStart H} (hparts : m.parts ≠ [])
    (h : ∀ part ∈ m.parts, ∃ T, Construction.construct? part N = some T) :
    m.construct? N = some (m.construct N) := by
  obtain ⟨runs, hruns⟩ := exists_forall₂ h
  have hmapM := mapM_eq_some_of_forall₂ hruns
  obtain ⟨best, hbest, heq⟩ := exists_bestOf? hparts N
  rw [runs_eq hmapM] at hbest
  rw [construct?, hmapM, heq]
  change ((Tour.bestOf? runs).or _).bind _ = _
  rw [hbest]
  rfl

theorem feasible_construct_of_no_parts {m : MultiStart H} (h : m.parts = []) (N : Network) :
    (m.construct N).feasible = (Tour.evaluate N [N.source] name).feasible := by
  rw [construct, runs_eq_nil_iff.2 h]
  rfl

/-- A multi-start comes back with a feasible tour if and only if one of its parts does, whatever the
parts are. The only other case is that there are no parts and that the tour which stays at the
source is feasible, which it never is in a checked network. If some part comes back with a feasible
tour, the multi-start has the vertices, the cost and the duration of the first of the cheapest. -/
theorem construct_cheapest (m : MultiStart H) (N : Network) :
    ((m.construct N).feasible = true ↔ (∃ t ∈ m.runs N, t.feasible = true) ∨
      m.parts = [] ∧ (Tour.evaluate N [N.source] name).feasible = true) ∧
    (N.WellFormed → ((m.construct N).feasible = true ↔ ∃ t ∈ m.runs N, t.feasible = true)) ∧
    ((∃ t ∈ m.runs N, t.feasible = true) → ∃ t, Tour.IsFirstCheapest (m.runs N) t ∧
      (m.construct N).vertices = t.vertices ∧ (m.construct N).cost = t.cost ∧
      (m.construct N).duration = t.duration) := by
  by_cases hparts : m.parts = []
  · have hnone : ¬ ∃ t ∈ m.runs N, t.feasible = true := by
      rw [runs_eq_nil_iff.2 hparts]
      rintro ⟨t, ht, _⟩
      exact absurd ht List.not_mem_nil
    rw [feasible_construct_of_no_parts hparts]
    refine ⟨?_, fun hN => ?_, fun h => absurd h hnone⟩
    · exact ⟨fun h => .inr ⟨hparts, h⟩, fun h => (h.resolve_left hnone).2⟩
    · exact iff_of_false (Bool.eq_false_iff.1 (Tour.feasible_evaluate_source hN name)) hnone
  · obtain ⟨best, hkeeps, heq⟩ := exists_keeps hparts N
    have hno : ¬ (m.parts = [] ∧ (Tour.evaluate N [N.source] name).feasible = true) :=
      fun h => hparts h.1
    rw [heq]
    refine ⟨?_, fun _ => hkeeps.feasible_iff, fun h => ?_⟩
    · exact hkeeps.feasible_iff.trans (or_iff_left hno).symm
    · exact ⟨best, hkeeps.cheapest (hkeeps.feasible_iff.2 h), rfl, rfl, rfl⟩

end MultiStart

def Network.loop : Network :=
  { Network.withArcs "loop" 1 0 [⟨0, 0, 1⟩] with horizon := 5 }

theorem Network.network?_loop : Network.loop.toDraft.network? = some Network.loop := by
  cbv

/-- Without any part the tour that stays at the source is taken, and here it is feasible. -/
theorem MultiStart.feasible_without_runs : Network.loop.toDraft.network? = some Network.loop ∧
    (⟨[]⟩ : MultiStart).construct? Network.loop = some ⟨[0], some 1, 1, true, "MultiStart"⟩ ∧
    ¬ (((⟨[]⟩ : MultiStart).construct Network.loop).feasible = true ↔
      ∃ t ∈ (⟨[]⟩ : MultiStart).runs Network.loop, t.feasible = true) := by
  refine ⟨Network.network?_loop, rfl, fun h => ?_⟩
  obtain ⟨t, ht, _⟩ := h.1 rfl
  exact absurd ht List.not_mem_nil

end TourPricing
