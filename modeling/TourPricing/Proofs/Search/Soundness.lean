import Mathlib.Data.List.ProdSigma
import TourPricing.Network.Build
import TourPricing.Proofs.Search.Trail
import TourPricing.Proofs.Walk
import TourPricing.Search.Basic

namespace TourPricing

variable {α : Type} [Scalar α]

theorem Scalar.sum_concat (l : List α) (a : α) : Scalar.sum (l ++ [a]) = Scalar.sum l + a := by
  rw [Scalar.sum, List.foldl_append]
  rfl

theorem Bucket.mem_swapRemove {β : Type} {l : List β} {position : Nat} {b : β}
    (h : b ∈ swapRemove l position) : b ∈ l := by
  rw [swapRemove] at h
  split at h
  · cases h
  · rename_i last hlast
    rcases List.mem_or_eq_of_mem_set ((List.dropLast_sublist _).subset h) with hb | hb
    · exact hb
    · exact hb ▸ List.mem_of_getLast? hlast

theorem Bucket.mem_insert {rule : VisitRule} {limit : Nat} {bucket : List (Label α)}
    {x y : Label α} (h : y ∈ (Bucket.insert rule limit bucket x).1) : y ∈ bucket ∨ y = x := by
  have hkept : y ∈ bucket.filter (fun old => !x.covers rule old) ++ [x] → y ∈ bucket ∨ y = x := by
    intro hy
    rcases List.mem_append.1 hy with hy | hy
    · exact .inl (List.mem_filter.1 hy).1
    · exact .inr (List.mem_singleton.1 hy)
  simp only [Bucket.insert] at h
  split at h
  · exact .inl h
  · split at h
    · exact hkept (mem_swapRemove h)
    · exact hkept h

namespace Search

variable (S : Search α)

def trailAfter (legs : List Leg) : Trail :=
  Trail.ofVisits S.expansion.network.dimension S.rule.memory (S.expansion.network.visits legs)

/-- A leg may be taken after others if it is allowed, and leads to the source or to a vertex that
the rule admits. -/
def MayTake (legs : List Leg) (leg : Leg) : Prop :=
  S.allows leg = true ∧ (leg.head.vertex = S.expansion.network.source ∨
    S.rule.admits (S.trailAfter legs) leg.head.vertex = true)

abbrev Walk (legs : List Leg) (s : Stop) : Prop :=
  S.expansion.Walk S.MayTake legs s

def labelOf (legs : List Leg) : Label α :=
  ⟨(Route.mk legs).cost S.cost, legs.reverse, S.trailAfter legs⟩

theorem labelOf_nil : Label.start S.expansion.network.dimension S.expansion.network.source =
    S.labelOf [] := by
  rw [Label.start, Trail.start_eq_ofVisits S.rule.memory_pos]
  rfl

theorem extend_labelOf (legs : List Leg) (leg : Leg) :
    (S.labelOf legs).extend S.rule.memory leg (S.cost leg.edge) = S.labelOf (legs ++ [leg]) := by
  simp only [Label.extend, labelOf, trailAfter, Trail.visit_ofVisits S.rule.memory_pos,
    Network.visits_snoc, Route.cost, List.map_append, List.map_cons, List.map_nil,
    Scalar.sum_concat, List.reverse_append, List.reverse_cons, List.reverse_nil, List.nil_append,
    List.cons_append]

/-- What a search knows once it has looked at an edge of some cost. -/
def Progress.look (progress : Progress α) (cost : α) : Progress α :=
  { progress with leastEdgeCost := Scalar.least progress.leastEdgeCost cost }

def offer (bucket : List (Label α)) (legs : List Leg) (s : Stop) : List (Label α) × Bool :=
  if s.vertex = S.expansion.network.source then (bucket ++ [S.labelOf legs], false)
  else Bucket.insert S.rule S.limits.labelLimit bucket (S.labelOf legs)

variable {S} {legs : List Leg} {leg : Leg} {s : Stop} {F : Frontier (List (Label α))}
  {progress : Progress α}

theorem mem_offer {bucket : List (Label α)} {x : Label α} (h : x ∈ (S.offer bucket legs s).1) :
    x ∈ bucket ∨ x = S.labelOf legs := by
  rw [offer] at h
  split at h
  · exact (List.mem_append.1 h).imp_right List.mem_singleton.1
  · exact Bucket.mem_insert h

theorem extendBy_of_not_allows (ha : S.allows leg = false) (x : Label α) :
    S.extendBy x (F, progress) leg = (F, progress) := by
  simp [extendBy, ha]

theorem extendBy_of_not_mayTake (ha : S.allows leg = true) (hm : ¬ S.MayTake legs leg) :
    S.extendBy (S.labelOf legs) (F, progress) leg = (F, progress.look (S.cost leg.edge)) := by
  have hv : leg.head.vertex ≠ S.expansion.network.source := fun hv => hm ⟨ha, .inl hv⟩
  have hr : S.rule.admits (S.trailAfter legs) leg.head.vertex = false :=
    Bool.eq_false_iff.2 fun hr => hm ⟨ha, .inr hr⟩
  simp [extendBy, ha, hv, labelOf, hr, Progress.look]

theorem extendBy_of_mayTake (hm : S.MayTake legs leg) :
    S.extendBy (S.labelOf legs) (F, progress) leg =
      (F.set leg.head (S.offer ((F.get? leg.head).getD []) (legs ++ [leg]) leg.head).1,
        { progress.look (S.cost leg.edge) with
          exhaustive := progress.exhaustive &&
            !(S.offer ((F.get? leg.head).getD []) (legs ++ [leg]) leg.head).2 }) := by
  obtain ⟨ha, hm⟩ := hm
  by_cases hv : leg.head.vertex = S.expansion.network.source
  · simp [extendBy, ha, hv, offer, extend_labelOf, Progress.look]
  · have hr : S.rule.admits (S.labelOf legs).trail leg.head.vertex = true := hm.resolve_left hv
    simp [extendBy, ha, hv, hr, offer, extend_labelOf, Progress.look]

/-- What one extension may change: nothing, the least cost, or the bucket at the end of the leg. -/
theorem extendBy_ordered {P : Stop → Prop} {state : Frontier (List (Label α)) × Progress α}
    (h : state.1.Ordered P) (hs : P leg.head) (legs : List Leg) :
    (S.extendBy (S.labelOf legs) state leg).1.Ordered P := by
  obtain ⟨F, progress⟩ := state
  by_cases hm : S.MayTake legs leg
  · rw [extendBy_of_mayTake hm]
    exact h.set hs _
  · cases ha : S.allows leg with
    | false => rwa [extendBy_of_not_allows ha]
    | true => rwa [extendBy_of_not_mayTake ha hm]

theorem settle_eq_foldl {bucket : List (Label α)} (hn : S.expansion.network.isTerminal s = false) :
    S.settle s bucket F progress = (bucket.product (S.expansion.outgoing s)).foldl
      (fun state p => S.extendBy p.1 state p.2) (F, progress) := by
  simp only [settle, hn, Bool.false_eq_true, if_false, List.product, List.foldl_flatMap,
    List.foldl_map]

theorem settle_induction {I : Frontier (List (Label α)) × Progress α → Prop}
    {bucket : List (Label α)} (hn : S.expansion.network.isTerminal s = false)
    (init : I (F, progress)) (step : ∀ x ∈ bucket, ∀ leg ∈ S.expansion.outgoing s,
      ∀ state, I state → I (S.extendBy x state leg)) : I (S.settle s bucket F progress) := by
  rw [settle_eq_foldl hn]
  apply List.foldlRecOn _ _ init
  intro state hstate p hp
  obtain ⟨hx, hl⟩ := List.mem_product.1 hp
  exact step p.1 hx p.2 hl state hstate

theorem settle_of_terminal {bucket : List (Label α)}
    (ht : S.expansion.network.isTerminal s = true) :
    S.settle s bucket F progress = (F, { progress with closed := progress.closed ++ bucket }) := by
  simp only [settle, ht, if_true]

variable (S) in
def Holds (s : Stop) (bucket : List (Label α)) : Prop :=
  ∀ x ∈ bucket, ∃ legs, S.Walk legs s ∧ x = S.labelOf legs

variable (S) in
/-- Every label that waits belongs to a walk to its stop, and so does every label that is closed,
where the stop ends the walk. -/
structure Tracks (state : Frontier (List (Label α)) × Progress α) : Prop where
  waiting : ∀ entry ∈ state.1.entries, S.Holds entry.1 entry.2
  closed : ∀ x ∈ state.2.closed, ∃ legs s, S.Walk legs s ∧
    S.expansion.network.isTerminal s = true ∧ x = S.labelOf legs

theorem Tracks.extendBy {state : Frontier (List (Label α)) × Progress α} (ht : S.Tracks state)
    (w : S.Walk legs s) (hl : leg ∈ S.expansion.outgoing s) :
    S.Tracks (S.extendBy (S.labelOf legs) state leg) := by
  obtain ⟨F, progress⟩ := state
  by_cases hm : S.MayTake legs leg
  · rw [extendBy_of_mayTake hm]
    refine ⟨fun entry he => ?_, ht.closed⟩
    rcases Frontier.mem_set he with he | he
    · rw [he]
      intro x hx
      rcases mem_offer hx with hx | hx
      · cases hb : F.get? leg.head with
        | none =>
          rw [hb] at hx
          exact nomatch hx
        | some bucket =>
          rw [hb] at hx
          exact ht.waiting _ (Frontier.mem_of_get? hb) x hx
      · exact ⟨_, w.step hl hm, hx⟩
    · exact ht.waiting entry he
  · cases ha : S.allows leg with
    | false => rwa [extendBy_of_not_allows ha]
    | true =>
      rw [extendBy_of_not_mayTake ha hm]
      exact ⟨ht.waiting, ht.closed⟩

theorem Tracks.rest {bucket : List (Label α)} {rest : List (Stop × List (Label α))}
    (ht : S.Tracks (⟨(s, bucket) :: rest⟩, progress)) :
    S.Holds s bucket ∧ S.Tracks (⟨rest⟩, progress) :=
  ⟨ht.waiting _ List.mem_cons_self,
    fun entry he => ht.waiting entry (List.mem_cons_of_mem _ he), ht.closed⟩

theorem Tracks.settle {bucket : List (Label α)} {rest : List (Stop × List (Label α))}
    (ht : S.Tracks (⟨(s, bucket) :: rest⟩, progress)) :
    S.Tracks (S.settle s bucket ⟨rest⟩ progress) := by
  obtain ⟨hb, hrest⟩ := ht.rest
  cases hn : S.expansion.network.isTerminal s with
  | true =>
    rw [settle_of_terminal hn]
    refine ⟨hrest.waiting, fun x hx => ?_⟩
    rcases List.mem_append.1 hx with hx | hx
    · exact hrest.closed x hx
    · obtain ⟨legs, w, rfl⟩ := hb x hx
      exact ⟨legs, s, w, hn, rfl⟩
  | false =>
    apply settle_induction hn hrest
    intro x hx leg hl state hstate
    obtain ⟨legs, w, rfl⟩ := hb x hx
    exact hstate.extendBy w hl

theorem tracks_start : S.Tracks (.single S.expansion.network.start
    [Label.start S.expansion.network.dimension S.expansion.network.source], ⟨[], none, true⟩) := by
  refine ⟨fun entry he => ?_, fun x hx => nomatch hx⟩
  rw [List.mem_singleton.1 he, labelOf_nil]
  exact fun x hx => ⟨[], .start, List.mem_singleton.1 hx⟩

theorem ordered_settle {bucket : List (Label α)} {rest : List (Stop × List (Label α))}
    (h : S.expansion.network.WellFormed)
    (hord : (Frontier.mk rest).Ordered fun t =>
      t.Within S.expansion.network.dimension S.expansion.horizon ∧ s.before t = true)
    (hb : S.Holds s bucket) : (S.settle s bucket ⟨rest⟩ progress).1.Ordered fun t =>
      t.Within S.expansion.network.dimension S.expansion.horizon ∧ s.before t = true := by
  cases hn : S.expansion.network.isTerminal s with
  | true => rwa [settle_of_terminal hn]
  | false =>
    apply settle_induction (I := fun state => state.1.Ordered _) hn hord
    intro x hx leg hl state hstate
    obtain ⟨legs, w, rfl⟩ := hb x hx
    exact extendBy_ordered hstate ⟨h.head_within hl, h.before_head hl⟩ legs

/-- What the start of a search has and each settled stop keeps, the end of the search has, when no
stop waits any more. -/
theorem explore_induction {I : Frontier (List (Label α)) × Progress α → Prop}
    (h : S.expansion.network.WellFormed)
    (start : I (.single S.expansion.network.start
      [Label.start S.expansion.network.dimension S.expansion.network.source], ⟨[], none, true⟩))
    (step : ∀ s bucket rest progress, S.Tracks (⟨(s, bucket) :: rest⟩, progress) →
      I (⟨(s, bucket) :: rest⟩, progress) → I (S.settle s bucket ⟨rest⟩ progress)) :
    ∃ F : Frontier (List (Label α)), F.entries = [] ∧ S.Tracks (F, S.explore) ∧
      I (F, S.explore) := by
  obtain ⟨F, hF, ht, hI⟩ := Frontier.sweep_empties S.settle
    (I := fun F progress => S.Tracks (F, progress) ∧ I (F, progress))
    (fun s bucket rest progress _ hord hx =>
      ⟨ordered_settle h hord hx.1.rest.1, hx.1.settle, step s bucket rest progress hx.1 hx.2⟩)
    (Frontier.Ordered.single h.start_within _) ⟨tracks_start, start⟩
  rw [← h.sweepLimit_eq] at ht hI
  exact ⟨F, hF, ht, hI⟩

variable (S) in
/-- A route that a search under a restriction may return: it leaves the start, takes legs of the
expansion that are free and in the window, keeps to the restriction, and ends when it first comes
back to the source. -/
structure Feasible (r : Restriction) (route : Route) : Prop where
  nonempty : route.legs ≠ []
  connected : route.isConnected = true
  departs : ∀ leg ∈ route.legs.head?, leg.tail = S.expansion.network.start
  returns : ∀ leg ∈ route.legs.getLast?, leg.head.vertex = S.expansion.network.source
  returns_once : ∀ leg ∈ route.legs.dropLast, leg.head.vertex ≠ S.expansion.network.source
  outgoing : ∀ leg ∈ route.legs, leg ∈ S.expansion.outgoing leg.tail
  by_horizon : ∀ leg ∈ route.legs, leg.head.time ≤ S.expansion.horizon
  free : ∀ leg ∈ route.legs, leg.edge ∉ S.forbidden
  admitted : ∀ leg ∈ route.legs, S.window.admits S.expansion.network.source leg.head = true
  not_late : ∀ leg ∈ route.legs, ∀ upper ∈ S.window.upper, leg.head.time ≤ upper
  not_early : ∀ lower ∈ S.window.lower, lower ≤ route.arrival
  obeys : r.Obeys route.vertices.dropLast

omit [Scalar α] in
theorem allows_iff : S.allows leg = true ↔
    leg.edge ∉ S.forbidden ∧ S.window.admits S.expansion.network.source leg.head = true := by
  simp [allows]

omit [Scalar α] in
theorem obeys_of_walk {r : Restriction} (h : S.expansion.network.WellFormed) (hr : S.rule = r.rule)
    (w : S.Walk legs s) (hn : S.expansion.network.isTerminal s = false) :
    r.Obeys (S.expansion.network.visits legs) := by
  induction w with
  | start => exact r.obeys_singleton _
  | @step legs s leg w hl hm ih =>
    have hne := (w.step hl hm).head_ne_source h hn (List.mem_append_right _ List.mem_cons_self)
    have hadm := hm.2.resolve_left hne
    rw [trailAfter, hr] at hadm
    rw [Network.visits_snoc]
    exact Restriction.obeys_snoc_iff.2 ⟨ih (h.not_terminal hl), hadm⟩

omit [Scalar α] in
theorem feasible_of_walk {r : Restriction} (h : S.expansion.network.WellFormed)
    (hr : S.rule = r.rule) (w : S.Walk legs s) (ht : S.expansion.network.isTerminal s = true) :
    S.Feasible r ⟨legs⟩ := by
  have hallows (leg : Leg) (hl : leg ∈ legs) := allows_iff.1 (w.may_of_mem hl).choose_spec.1
  cases w with
  | start => simp [Network.isTerminal, Network.start] at ht
  | @step legs s leg w hl hm =>
    have w' := w.step hl hm
    obtain ⟨hsource, _⟩ := Network.isTerminal_iff.1 ht
    have hwindow : S.window.admits S.expansion.network.source leg.head = true :=
      (hallows leg (List.mem_append_right _ List.mem_cons_self)).2
    have hne : legs ++ [leg] ≠ [] := List.concat_ne_nil _ _
    exact {
      nonempty := hne
      connected := Route.isConnected_iff.2 (w'.chain h)
      departs := w'.first h
      returns := fun last hlast => by rw [w'.last last hlast, hsource]
      returns_once := fun l hl' => by
        rw [List.dropLast_concat] at hl'
        exact w.head_ne_source h (h.not_terminal hl) hl'
      outgoing := fun l hl' => w'.mem_outgoing h hl'
      by_horizon := fun l hl' => (h.head_within (w'.mem_outgoing h hl')).2
      free := fun l hl' => (hallows l hl').1
      admitted := fun l hl' => (hallows l hl').2
      not_late := fun l hl' upper hu => by
        have hin := (hallows l hl').2
        rw [Option.mem_def] at hu
        simp only [TimeWindow.admits, hu, Option.all_some, Bool.and_eq_true,
          decide_eq_true_eq] at hin
        exact hin.1
      not_early := fun lower hlo => by
        rw [Option.mem_def] at hlo
        simpa [TimeWindow.admits, hlo, hsource, Route.arrival]
          using (Bool.and_eq_true_iff.1 hwindow).2
      obeys := by
        rw [w'.vertices_eq h hne, Network.visits_snoc, List.dropLast_concat]
        exact obeys_of_walk h hr w (h.not_terminal hl) }

variable (S) in
def ranked : List (Label α) :=
  (S.explore.closed.mergeSort Label.rankLE).filter (·.cost < S.limits.threshold)

theorem run_paths_eq (S : Search α) :
    S.run.paths = (S.ranked.take S.limits.maxPaths).map fun x => (x.cost, x.route) := rfl

theorem mem_ranked {x : Label α} :
    x ∈ S.ranked ↔ x ∈ S.explore.closed ∧ x.cost < S.limits.threshold := by
  rw [ranked, List.mem_filter, List.mem_mergeSort, decide_eq_true_eq]

theorem ranked_sorted (S : Search α) :
    S.ranked.Pairwise fun x y => Scalar.rankLE x.cost y.cost = true :=
  List.Pairwise.sublist List.filter_sublist <|
    List.pairwise_mergeSort (fun x y z => Scalar.rankLE_trans x.cost y.cost z.cost)
      (fun x y => Scalar.rankLE_total x.cost y.cost) _

theorem run_paths_sorted (S : Search α) :
    S.run.paths.Pairwise fun p q => Scalar.rankLE p.1 q.1 = true :=
  List.pairwise_map.2 (List.Pairwise.sublist (List.take_sublist _ _) S.ranked_sorted)

theorem run_paths_length (S : Search α) : S.run.paths.length =
    min S.limits.maxPaths (S.explore.closed.filter (·.cost < S.limits.threshold)).length := by
  rw [run_paths_eq, List.length_map, List.length_take, ranked,
    ((List.mergeSort_perm _ _).filter _).length_eq]

variable (S) in
/-- The walks that a search may take and that end where they first come back to the source. -/
def ClosedWalk (legs : List Leg) : Prop :=
  ∃ s, S.Walk legs s ∧ S.expansion.network.isTerminal s = true

theorem closedWalk_of_mem_closed (h : S.expansion.network.WellFormed) {x : Label α}
    (hx : x ∈ S.explore.closed) : ∃ legs, S.ClosedWalk legs ∧ x = S.labelOf legs := by
  obtain ⟨_, _, htracks, _⟩ := explore_induction (I := fun _ => True) h trivial
    fun _ _ _ _ _ _ => trivial
  obtain ⟨legs, s, w, ht, hl⟩ := htracks.closed x hx
  exact ⟨legs, ⟨s, w, ht⟩, hl⟩

/-- Every path that is returned is a closed walk with its cost. -/
theorem closedWalk_of_mem_run_paths (h : S.expansion.network.WellFormed) {p : α × Route}
    (hp : p ∈ S.run.paths) : ∃ legs, S.ClosedWalk legs ∧
      p = ((Route.mk legs).cost S.cost, ⟨legs⟩) ∧ p.1 < S.limits.threshold := by
  rw [run_paths_eq] at hp
  obtain ⟨x, hx, rfl⟩ := List.mem_map.1 hp
  obtain ⟨hx, hlt⟩ := mem_ranked.1 (List.mem_of_mem_take hx)
  obtain ⟨legs, hc, rfl⟩ := closedWalk_of_mem_closed h hx
  refine ⟨legs, hc, ?_, hlt⟩
  rw [Label.route, labelOf, List.reverse_reverse]

/-- A search under a restriction returns nothing but feasible routes with their costs, the cheapest
ones first. -/
theorem run_paths_feasible {name : String} {dimension source : Nat} {arcs : List Arc}
    {limit : Option Nat} (S : Search α) (r : Restriction)
    (hN : Network.ofArcs name dimension source arcs limit = .ok S.expansion.network)
    (hr : S.rule = r.rule) :
    (∀ p ∈ S.run.paths, S.Feasible r p.2 ∧ p.1 = p.2.cost S.cost ∧ p.1 < S.limits.threshold) ∧
      S.run.paths.Pairwise (fun p q => Scalar.rankLE p.1 q.1 = true) ∧
      S.run.paths.length ≤ S.limits.maxPaths := by
  have h := Network.wellFormed_of_ofArcs hN
  refine ⟨fun p hp => ?_, run_paths_sorted S, (run_paths_length S).trans_le (Nat.min_le_left _ _)⟩
  obtain ⟨legs, ⟨s, w, ht⟩, rfl, hlt⟩ := closedWalk_of_mem_run_paths h hp
  exact ⟨feasible_of_walk h hr w ht, rfl, hlt⟩

end Search

def Network.triangle : Network :=
  { Network.withArcs "triangle" 3 0 [⟨0, 1, 1⟩, ⟨1, 2, 1⟩, ⟨2, 0, 1⟩, ⟨1, 0, 1⟩, ⟨0, 2, 2⟩] with
    horizon := 10 }

theorem Network.ofArcs_triangle : Network.ofArcs "triangle" 3 0
    [⟨0, 1, 1⟩, ⟨1, 2, 1⟩, ⟨2, 0, 1⟩, ⟨1, 0, 1⟩, ⟨0, 2, 2⟩] (some 10) = .ok Network.triangle := rfl

def Search.triangle : Search Rat :=
  { expansion := Network.triangle.expand, cost := fun _ => -1, forbidden := []
    window := { lower := some 3 }, rule := Restriction.holeFree.rule, limits := .standard }

theorem Search.run_paths_feasible_triangle : Search.triangle.run.paths.length = 2 ∧
    ∀ p ∈ Search.triangle.run.paths, Search.triangle.Feasible .holeFree p.2 := by
  constructor
  · rw [run_paths_length]
    decide +kernel
  · intro p hp
    exact ((run_paths_feasible Search.triangle .holeFree Network.ofArcs_triangle rfl).1 p hp).1

end TourPricing
