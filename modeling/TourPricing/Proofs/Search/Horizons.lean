import TourPricing.Proofs.Expansion.DefaultHorizon
import TourPricing.Proofs.Search.Equivalence

namespace TourPricing

variable {N : Network} {s : Stop} {horizon horizon' : Nat}

theorem Network.legsFrom_eq_of_forall_le
    (h : ∀ e ∈ N.outEdges s.vertex, s.time + e.travelTime ≤ horizon)
    (h' : ∀ e ∈ N.outEdges s.vertex, s.time + e.travelTime ≤ horizon') :
    N.legsFrom horizon s = N.legsFrom horizon' s := by
  have keepsAll {limit : Nat} (hle : ∀ e ∈ N.outEdges s.vertex, s.time + e.travelTime ≤ limit) :
      ((N.outEdges s.vertex).map (·.departAt s.time)).filter (·.head.time ≤ limit) =
        (N.outEdges s.vertex).map (·.departAt s.time) := by
    rw [List.filter_eq_self]
    intro leg hl
    obtain ⟨e, he, rfl⟩ := List.mem_map.1 hl
    exact decide_eq_true (hle e he)
  rw [legsFrom, legsFrom, keepsAll h, keepsAll h']

theorem Frontier.sweep_of_empty {β σ : Type}
    {settle : Stop → β → Frontier β → σ → Frontier β × σ} {F : Frontier β}
    (hF : F.entries = []) (limit : Nat) (acc : σ) : sweep settle limit F acc = acc := by
  cases limit with
  | zero => rfl
  | succ limit => rw [sweep, hF]

theorem Restriction.nodup_of_obeys_holeFree {visits : List Nat} (h : holeFree.Obeys visits) :
    visits.Nodup := by
  induction visits using List.reverseRecOn with
  | nil => exact .nil
  | append_singleton visits v ih =>
    obtain ⟨hobeys, hadm⟩ := (obeys_snoc_iff (n := v)).1 h
    have hnew : v ∉ visits := by
      intro hv
      have hseen : (Trail.ofVisits v holeFree.rule.memory visits).visited.contains v = true :=
        Trail.contains_ofVisits.2 hv
      rw [admits, hseen] at hadm
      cases hadm
    rw [← List.concat_eq_append]
    exact List.Nodup.concat hnew (ih hobeys)

namespace Search

variable {α : Type} {S : Search α}

def upTo (S : Search α) (horizon : Nat) : Search α :=
  { S with expansion := { network := S.expansion.network, horizon } }

variable [Scalar α]

theorem exists_limit (h : S.expansion.network.WellFormed) : ∃ enough, ∀ more,
    Frontier.sweep S.settle (enough + more) (.single S.expansion.network.start
      [Label.start S.expansion.network.dimension S.expansion.network.source]) ⟨[], none, true⟩ =
      S.explore := by
  obtain ⟨F, hF, _, steps, hsteps⟩ := explore_induction (S := S)
    (I := fun state => ∃ steps, ∀ more,
      Frontier.sweep S.settle (steps + more) (.single S.expansion.network.start
        [Label.start S.expansion.network.dimension S.expansion.network.source]) ⟨[], none, true⟩ =
        Frontier.sweep S.settle more state.1 state.2) h
    ⟨0, fun more => by rw [Nat.zero_add]⟩
    (by
      rintro s bucket rest progress _ ⟨steps, hsteps⟩
      refine ⟨steps + 1, fun more => ?_⟩
      rw [Nat.add_assoc, Nat.add_comm 1, hsteps]
      rfl)
  exact ⟨steps, fun more => (hsteps more).trans (Frontier.sweep_of_empty hF more _)⟩

section

variable (hN : S.expansion.network.WellFormed) (hr : S.rule = Restriction.holeFree.rule)
  (h : S.expansion.network.defaultHorizon ≤ horizon)
  (h' : S.expansion.network.defaultHorizon ≤ horizon')

include hN hr h h'

omit [Scalar α] in
/-- Out of a stop to which a walk leads, both expansions have the same legs. -/
theorem outgoing_upTo {legs : List Leg} (w : (S.upTo horizon).Walk legs s)
    (hn : S.expansion.network.isTerminal s = false) :
    (S.upTo horizon').expansion.outgoing s = (S.upTo horizon).expansion.outgoing s := by
  have hobeys := obeys_of_walk (S := S.upTo horizon) (r := .holeFree) hN hr w hn
  have hnodup := Restriction.nodup_of_obeys_holeFree hobeys
  have harrives : ∀ e ∈ S.expansion.network.outEdges s.vertex,
      s.time + e.travelTime ≤ S.expansion.network.defaultHorizon :=
    fun e he => Expansion.Walk.arrival_le_defaultHorizon (E := (S.upTo horizon).expansion)
      hN w hnodup he
  exact Network.legsFrom_eq_of_forall_le (fun e he => (harrives e he).trans h')
    (fun e he => (harrives e he).trans h)

theorem settle_upTo {bucket : List (Label α)} (hb : (S.upTo horizon).Holds s bucket)
    (F : Frontier (List (Label α))) (progress : Progress α) :
    (S.upTo horizon').settle s bucket F progress = (S.upTo horizon).settle s bucket F progress := by
  cases hn : S.expansion.network.isTerminal s with
  | true =>
    rw [settle_of_terminal (S := S.upTo horizon') hn, settle_of_terminal (S := S.upTo horizon) hn]
  | false =>
    rw [settle_eq_foldl (S := S.upTo horizon') hn, settle_eq_foldl (S := S.upTo horizon) hn]
    cases bucket with
    | nil => rfl
    | cons x rest =>
      obtain ⟨legs, w, _⟩ := hb x List.mem_cons_self
      rw [outgoing_upTo hN hr h h' w hn]
      rfl

theorem run_upTo_eq : (S.upTo horizon').run = (S.upTo horizon).run := by
  obtain ⟨enough, henough⟩ := exists_limit (S := S.upTo horizon) hN
  obtain ⟨enough', henough'⟩ := exists_limit (S := S.upTo horizon') hN
  have hexplore : (S.upTo horizon').explore = (S.upTo horizon).explore := by
    rw [← henough enough', ← henough' enough, Nat.add_comm]
    apply Frontier.sweep_congr (I := fun F progress => (S.upTo horizon).Tracks (F, progress)) _ _
      tracks_start
    intro s bucket rest progress ht
    exact ⟨settle_upTo hN hr h h' ht.rest.1 _ _, ht.settle⟩
  rw [run, hexplore]
  rfl

end

end Search

/-- What the default horizon of a network on arcs is good for. Edges that leave no vertex twice take
no longer, and neither does a tour through all vertices. No later horizon makes a difference to a
search that enters no vertex twice. -/
theorem Network.defaultHorizon_suffices {name : String} {dimension source : Nat} {arcs : List Arc}
    {limit : Option Nat} (hofArcs : ofArcs name dimension source arcs limit = .ok N) :
    (∀ edges, N.LeavesOnce edges → total (edges.map (·.travelTime)) ≤ N.defaultHorizon) ∧
    (∀ vertices edges algorithm, vertices.Perm (List.range N.dimension) →
      N.tourEdges vertices = .ok edges →
      (Tour.evaluate N vertices algorithm).duration = total (edges.map (·.travelTime)) ∧
        (Tour.evaluate N vertices algorithm).duration ≤ N.defaultHorizon) ∧
    ∀ (α : Type) [Scalar α] (S : Search α) (horizon horizon' : Nat), S.expansion.network = N →
      S.rule = Restriction.holeFree.rule → N.defaultHorizon ≤ horizon →
      N.defaultHorizon ≤ horizon' → (S.upTo horizon).run = (S.upTo horizon').run := by
  have hN := wellFormed_of_ofArcs hofArcs
  refine ⟨fun edges h => h.total_le hN, fun vertices edges algorithm hperm hedges => ⟨?_, ?_⟩, ?_⟩
  · rw [Tour.evaluate_eq hedges]
  · exact duration_le_defaultHorizon hN (hperm.nodup_iff.2 List.nodup_range) algorithm
  · rintro α _ S horizon horizon' rfl hr h h'
    exact Search.run_upTo_eq hN hr h' h

theorem Network.defaultHorizon_suffices_triangle : Network.triangle.defaultHorizon = 4 ∧
    (Tour.evaluate Network.triangle [0, 1, 2] "around").duration ≤ 4 ∧
    (Search.triangle.upTo 4).run.paths.length = 2 ∧
    (Search.triangle.upTo 4).run = (Search.triangle.upTo 10).run := by
  obtain ⟨_, htours, hsearches⟩ := defaultHorizon_suffices Network.ofArcs_triangle
  have hhorizon : Network.triangle.defaultHorizon = 4 := by decide +kernel
  have hperm : [0, 1, 2].Perm (List.range Network.triangle.dimension) := by decide
  have htour := (htours [0, 1, 2] _ "around" hperm rfl).2
  refine ⟨hhorizon, hhorizon ▸ htour, ?_, ?_⟩
  · rw [Search.run_paths_length]
    decide +kernel
  · exact hsearches Rat Search.triangle 4 10 rfl rfl (by decide +kernel) (by decide +kernel)

end TourPricing
