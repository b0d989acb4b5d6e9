import Mathlib.Data.ENat.Basic
import TourPricing.Proofs.Exact
import TourPricing.Proofs.Search.LeastCost
import TourPricing.Proofs.Search.Optimality

namespace TourPricing

def Restriction.rank : Restriction → ℕ∞
  | .acyclic k => k
  | .holeFree => ⊤
  | .twoCycleFree => 2

theorem Restriction.sees_iff {r : Restriction} {gap : Nat} :
    r.Sees gap ↔ (gap : ℕ∞) ≤ r.rank ∨ gap ≤ 1 := by
  cases r with
  | acyclic k => rw [Sees, rank, le_max_iff, Nat.cast_le]
  | holeFree => simp [Sees, rank]
  | twoCycleFree =>
    rw [Sees, rank, Nat.cast_le_ofNat]
    omega

theorem Restriction.admits_of_rank_le {r q : Restriction} (h : q.rank ≤ r.rank) {n v : Nat}
    {visits : List Nat} (hr : r.admits (Trail.ofVisits n r.rule.memory visits) v = true) :
    q.admits (Trail.ofVisits n q.rule.memory visits) v = true := by
  rw [admits_ofVisits_iff] at hr ⊢
  intro i hs
  exact hr i (sees_iff.2 ((sees_iff.1 hs).imp_left fun hle => hle.trans h))

structure TimeWindow.Inside (w v : TimeWindow) : Prop where
  lower : v.lower.getD 0 ≤ w.lower.getD 0
  upper : ∀ t ∈ v.upper, ∃ u ∈ w.upper, u ≤ t

theorem TimeWindow.Inside.admits {w v : TimeWindow} (h : w.Inside v) {source : Nat} {s : Stop}
    (hs : w.admits source s = true) : v.admits source s = true := by
  simp only [TimeWindow.admits, Bool.and_eq_true, Bool.or_eq_true, Option.all_eq_true,
    decide_eq_true_eq] at hs ⊢
  obtain ⟨hupper, hlower⟩ := hs
  refine ⟨fun t ht => ?_, hlower.imp_right fun hlower t ht => ?_⟩
  · obtain ⟨u, hu, hle⟩ := h.upper t ht
    exact (hupper u hu).trans hle
  · have hopens := h.lower
    rw [ht, Option.getD_some] at hopens
    cases hw : w.lower with
    | none =>
      rw [hw] at hopens
      exact hopens.trans (Nat.zero_le _)
    | some u =>
      rw [hw] at hopens
      exact hopens.trans (hlower u hw)
namespace Search

variable {α : Type}

/-- A search is as narrow as another one: it stays on the same network and within the horizon of
the other one, and what it may take the other one may take, too. -/
structure Narrows (A B : Search α) : Prop where
  network_eq : A.expansion.network = B.expansion.network
  cost_eq : A.cost = B.cost
  horizon_le : A.expansion.horizon ≤ B.expansion.horizon
  allows : ∀ leg, A.allows leg = true → B.allows leg = true
  admits : ∀ legs s leg, A.Walk legs s → leg ∈ A.expansion.outgoing s →
    A.rule.admits (A.trailAfter legs) leg.head.vertex = true →
    B.rule.admits (B.trailAfter legs) leg.head.vertex = true

namespace Narrows

variable {A B : Search α} {legs : List Leg} {s : Stop} {leg : Leg}

theorem mem_outgoing (h : A.Narrows B) (hl : leg ∈ A.expansion.outgoing s) :
    leg ∈ B.expansion.outgoing s := by
  rw [Expansion.outgoing, Network.legsFrom] at hl ⊢
  rw [← h.network_eq]
  split at hl
  · cases hl
  · rename_i hterminal
    obtain ⟨hmem, hle⟩ := List.mem_filter.1 hl
    rw [if_neg hterminal]
    exact List.mem_filter.2 ⟨hmem, decide_eq_true ((of_decide_eq_true hle).trans h.horizon_le)⟩

theorem walk (h : A.Narrows B) (w : A.Walk legs s) : B.Walk legs s := by
  induction w with
  | start =>
    rw [h.network_eq]
    exact .start
  | @step legs s leg w hl hm ih =>
    refine ih.step (h.mem_outgoing hl) ⟨h.allows leg hm.1, ?_⟩
    rw [← h.network_eq]
    exact hm.2.imp_right (h.admits legs s leg w hl)

theorem closedWalk (h : A.Narrows B) (hc : A.ClosedWalk legs) : B.ClosedWalk legs := by
  obtain ⟨s, w, ht⟩ := hc
  exact ⟨s, h.walk w, h.network_eq ▸ ht⟩

theorem looksAt (h : A.Narrows B) (hl : A.LooksAt leg) : B.LooksAt leg := by
  obtain ⟨legs, s, w, hl, ha⟩ := hl
  exact ⟨legs, s, h.walk w, h.mem_outgoing hl, h.allows leg ha⟩

end Narrows

/-- A search is run under tighter conditions than another one: on the same network with the same
costs, up to no later horizon, with no less forbidden, and in a window inside the other one. -/
structure Tightens (A B : Search α) : Prop where
  network_eq : A.expansion.network = B.expansion.network
  cost_eq : A.cost = B.cost
  horizon_le : A.expansion.horizon ≤ B.expansion.horizon
  forbidden : ∀ e ∈ B.forbidden, e ∈ A.forbidden
  window : A.window.Inside B.window

theorem Tightens.narrows {A B : Search α} {r q : Restriction} (h : A.Tightens B)
    (hr : A.rule = r.rule) (hq : B.rule = q.rule) (hrank : q.rank ≤ r.rank) : A.Narrows B where
  network_eq := h.network_eq
  cost_eq := h.cost_eq
  horizon_le := h.horizon_le
  allows leg ha := by
    rw [allows_iff] at ha ⊢
    rw [← h.network_eq]
    exact ⟨fun hf => ha.1 (h.forbidden _ hf), h.window.admits ha.2⟩
  admits legs s leg _ _ hadm := by
    rw [trailAfter, hr] at hadm
    rw [trailAfter, hq, ← h.network_eq]
    exact Restriction.admits_of_rank_le hrank hadm

namespace Narrows

variable {A B : Search Rat}

/-- An exhaustive search sees an edge at least as cheap as the cheapest that a narrower one sees. -/
theorem atMost_least (h : A.Narrows B) (hB : B.expansion.network.WellFormed)
    (hd : B.rule.IsDominance B.expansion.network.dimension) (he : B.run.exhaustive = true) :
    ∀ m ∈ A.run.leastEdgeCost, Scalar.AtMost B.run.leastEdgeCost m := by
  intro m hm
  obtain ⟨leg, hl, rfl⟩ := exists_looksAt_of_least (h.network_eq ▸ hB) hm
  rw [h.cost_eq]
  exact exists_le_of_looksAt hB (Network.finiteCosts _ _) hd he (h.looksAt hl)

/-- An exhaustive search finds a path at least as cheap as any that a narrower one finds. -/
theorem exists_head_le (h : A.Narrows B) (hB : B.expansion.network.WellFormed)
    (hd : B.rule.IsDominance B.expansion.network.dimension) (he : B.run.exhaustive = true)
    (hmax : 1 ≤ B.limits.maxPaths) (ht : A.limits.threshold ≤ B.limits.threshold) :
    ∀ p ∈ A.run.paths, ∃ q ∈ B.run.paths.head?, q.1 ≤ p.1 := by
  intro p hp
  obtain ⟨legs, hc, rfl, hlt⟩ := closedWalk_of_mem_run_paths (h.network_eq ▸ hB) hp
  rw [h.cost_eq] at hlt ⊢
  obtain ⟨x, hx, hle⟩ := exists_closed_le hB hd he (h.closedWalk hc)
  cases hpaths : B.run.paths with
  | nil =>
    exact absurd (hle.trans_lt (hlt.trans_le ht)) ((run_paths_eq_nil_iff hmax).1 hpaths x hx)
  | cons q rest =>
    have hq : q ∈ B.run.paths.head? := by rw [hpaths]; rfl
    exact ⟨q, rfl, (head_run_paths_le hq hx).trans hle⟩

end Narrows

end Search

end TourPricing
