import TourPricing.Proofs.Expansion.Feasibility
import TourPricing.Proofs.Manager.Growth

namespace TourPricing

theorem exists_meeting_of_chain {legs : List Leg} (h : legs.IsChain fun a b => a.head = b.tail)
    (hne : legs ≠ []) : ∃ first meeting last,
      legs.map (·.tail) = first :: meeting ∧ legs.map (·.head) = meeting ++ [last] := by
  induction legs with
  | nil => exact absurd rfl hne
  | cons a rest ih =>
    cases rest with
    | nil => exact ⟨a.tail, [], a.head, rfl, rfl⟩
    | cons b rest =>
      obtain ⟨hab, hrest⟩ := List.isChain_cons_cons.1 h
      obtain ⟨first, meeting, last, htails, hheads⟩ := ih hrest (List.cons_ne_nil b rest)
      refine ⟨a.tail, first :: meeting, last, congrArg (a.tail :: ·) htails, ?_⟩
      have hfirst : a.head = first := hab.trans (List.cons.inj htails).1
      rw [List.map_cons, hheads, hfirst]
      rfl

namespace Network

variable {N : Network} {rest : List Nat} {edges : List Edge} {legs : List Leg} {way : List Stop}

/-- Legs from the source through some stops, which are different and away from it, back to the
source. -/
structure RoundTrip (N : Network) (way : List Stop) (legs : List Leg) : Prop where
  tails : ∃ s, s.vertex = N.source ∧ legs.map (·.tail) = s :: way
  heads : ∃ s, s.vertex = N.source ∧ legs.map (·.head) = way ++ [s]
  away : ∀ s ∈ way, s.vertex ≠ N.source
  nodup : way.Nodup

theorem total_rowsOf (N : Network) (legs : List Leg) : total (legs.map N.rowsOf) =
    (legs.map (·.tail)).countP (·.vertex != N.source) +
      (legs.map (·.head)).countP (·.vertex != N.source) + legs.length := by
  induction legs with
  | nil => rfl
  | cons leg rest ih =>
    rw [List.map_cons, total_cons, ih, rowsOf, Leg.stops, List.map_cons, List.map_cons,
      List.countP_cons, List.countP_cons, List.countP_cons, List.countP_cons, List.countP_nil,
      List.length_cons]
    omega

namespace RoundTrip

variable (h : N.RoundTrip way legs)

include h

theorem length_eq : legs.length = way.length + 1 := by
  obtain ⟨s, _, htails⟩ := h.tails
  rw [← List.length_map, htails, List.length_cons]

theorem ne_nil : legs ≠ [] := by
  rw [← List.length_pos_iff, h.length_eq]
  exact Nat.succ_pos _

theorem nodup_legs : legs.Nodup := by
  obtain ⟨last, hlast, hheads⟩ := h.heads
  have hnodup : (legs.map (·.head)).Nodup := by
    rw [hheads, ← List.concat_eq_append]
    exact h.nodup.concat fun hmem => h.away last hmem hlast
  exact hnodup.of_map _

theorem mem_way (s : Stop) :
    s ∈ legs.flatMap Leg.stops ∧ s.vertex ≠ N.source ↔ s ∈ way := by
  have hstops : s ∈ legs.flatMap Leg.stops ↔
      s ∈ legs.map (·.tail) ∨ s ∈ legs.map (·.head) := by
    simp only [List.mem_flatMap, List.mem_map, Leg.stops, List.mem_cons, List.not_mem_nil,
      or_false, and_or_left, exists_or, eq_comm]
  obtain ⟨first, hfirst, htails⟩ := h.tails
  obtain ⟨last, hlast, hheads⟩ := h.heads
  rw [hstops, htails, hheads, List.mem_cons, List.mem_append, List.mem_singleton]
  constructor
  · rintro ⟨(rfl | hs) | hs | rfl, hne⟩
    · exact absurd hfirst hne
    · exact hs
    · exact hs
    · exact absurd hlast hne
  · exact fun hs => ⟨.inl (.inr hs), h.away s hs⟩

/-- Each leg touches the row of its edge, and each stop on the way is touched twice. -/
theorem total_rowsOf : total (legs.map N.rowsOf) = 3 * legs.length - 2 := by
  obtain ⟨first, hfirst, htails⟩ := h.tails
  obtain ⟨last, hlast, hheads⟩ := h.heads
  have hway : way.countP (·.vertex != N.source) = way.length :=
    List.countP_eq_length.2 fun s hs => bne_iff_ne.2 (h.away s hs)
  rw [N.total_rowsOf, htails, hheads, List.countP_cons, List.countP_append, hway,
    List.countP_singleton, hfirst, hlast, bne_self_eq_false, if_neg Bool.false_ne_true, h.length_eq]
  omega

end RoundTrip

theorem Circuit.roundTrip (h : N.Circuit rest edges)
    (hcomplete : N.isComplete (N.source :: rest) = true) :
    ∃ way, N.RoundTrip way (departInTurn 0 edges) := by
  have hne : departInTurn 0 edges ≠ [] := by
    rw [← List.length_pos_iff, length_departInTurn]
    exact List.length_pos_iff.2 h.ne_nil
  obtain ⟨first, way, last, htails, hheads⟩ :=
    exists_meeting_of_chain (departInTurn_isChain h.isChain) hne
  have hsources : first.vertex :: way.map (·.vertex) = N.source :: rest := by
    rw [← List.map_cons, ← htails, List.map_map, ← h.sources, ← tails_departInTurn edges 0]
    rfl
  have htargets : way.map (·.vertex) ++ [last.vertex] = rest ++ [N.source] := by
    rw [← List.map_singleton, ← List.map_append, ← hheads, List.map_map, ← h.targets,
      ← heads_departInTurn edges 0]
    rfl
  obtain ⟨hfirst, hway⟩ := List.cons.inj hsources
  have hlast : last.vertex = N.source :=
    List.singleton_inj.1 (List.append_inj' htargets rfl).2
  obtain ⟨_, _, hnodup⟩ := of_decide_eq_true hcomplete
  obtain ⟨hsource, hnodup⟩ := List.nodup_cons.1 hnodup
  rw [← hway] at hsource hnodup
  refine ⟨way, ⟨first, hfirst, htails⟩, ⟨last, hlast, hheads⟩, ?_, hnodup.of_map _⟩
  exact fun s hs he => hsource (he ▸ List.mem_map_of_mem hs)

end Network

namespace Manager

section

variable {α : Type} [Scalar α] {start m t : Manager (Ledger α) α} {touched : List Stop}
  {way : List Stop} {r : Route} {limit : Nat}

/-- What a tour leaves behind that was offered to the ledger once its legs were in the tables. -/
structure Offered (r : Route) (m m' : Manager (Ledger α) α) (accepted : Bool) : Prop where
  eq : ∃ l incumbent, m' = { m with master := l, incumbent }
  model : Ledger.SameModel m.master m'.master
  submission : ∃ s, m'.master.submissions = m.master.submissions.push s ∧
    s.accepted = accepted ∧ s.objective = Scalar.ofNat r.travelTime
  best : m'.master.bestAccepted =
    if accepted then some (Scalar.ofNat r.travelTime) else m.master.bestAccepted
  incumbent : m'.incumbent =
    if accepted = true ∧ m.incumbent.all ((Scalar.ofNat r.travelTime : α) < ·) then
      some (Scalar.ofNat r.travelTime) else m.incumbent

theorem Grown.run_addRoute [CountsUpTo α limit] (h : Grown start touched r.legs t)
    (hactive : m.phase = .active)
    (hlegs : (r.legs.mapM materialize : Call (Ledger α) α _).run m =
      (.ok (t.columns.map (·.2)), t))
    (htour : r.isTour? start.expansion.network = some true) (hne : r.legs ≠ [])
    (htime : r.travelTime? = some r.travelTime) (hle : r.travelTime ≤ limit) :
    ∃ u, (addRoute r : Call (Ledger α) α Bool).run m =
      (.ok (t.master.bestAccepted.all ((Scalar.ofNat r.travelTime : α) < ·)), u) ∧
      Offered r t u (t.master.bestAccepted.all ((Scalar.ofNat r.travelTime : α) < ·)) := by
  have hne' : (t.columns.map fun p => (p.2, (Scalar.ofNat 1 : α))).isEmpty = false := by
    rw [List.isEmpty_map, List.isEmpty_eq_false_iff]
    intro hnil
    have hkeys := h.columns
    rw [hnil] at hkeys
    exact hne hkeys.symm
  have hvalue : t.master.value (t.columns.map fun p => (p.2, Scalar.ofNat 1)) =
      .ok (Scalar.ofNat r.travelTime) := h.value_eq hle
  obtain ⟨l, hsubmit⟩ := Ledger.exists_submit hvalue
  obtain ⟨objective, hobjective, _, hl⟩ := Ledger.eq_of_submit hsubmit
  obtain rfl := Except.ok.inj (hobjective.symm.trans hvalue)
  rw [hne', Bool.not_false, Bool.true_and] at hsubmit hl
  have hassigned :
      t.master.withSubmission ((t.columns.map (·.2)).map fun v => (v, Scalar.ofNat 1)) =
        .ok (t.master.bestAccepted.all ((Scalar.ofNat r.travelTime : α) < ·), l) := by
    rw [List.map_map]
    exact hsubmit
  have hoffer := run_offerRoute (h.keeps.expansion ▸ htour) htime hassigned
  have hrun : (addRoute r : Call (Ledger α) α Bool).run m =
      (offerRoute r (t.columns.map (·.2))).run t := by
    rw [addRoute_eq, run_ensureActive_bind, if_pos hactive, run_bind, hlegs]
  refine ⟨_, hrun.trans hoffer, ?_⟩
  constructor
  case eq => exact ⟨_, _, rfl⟩
  case model => exact Ledger.sameModel_of_submit hsubmit
  case submission =>
    rw [hl]
    exact ⟨_, rfl, rfl, rfl⟩
  case best => rw [hl]
  case incumbent => rfl

theorem Grown.length_flow (h : Grown start (r.legs.flatMap Leg.stops) r.legs m)
    (hway : start.expansion.network.RoundTrip way r.legs) : m.flow.length = way.length := by
  have hperm : (m.flow.map (·.1)).Perm way := by
    rw [List.perm_ext_iff_of_nodup h.stops hway.nodup]
    intro s
    rw [h.mem_stops, hway.mem_way]
  rw [← List.length_map, hperm.length_eq]

section

variable {vertices : List Nat} [CountsUpTo α limit]
  (hactive : start.phase = .active) (htrace : start.expansion.trace vertices = .ok r)
  (htour : r.isTour? start.expansion.network = some true)
  (hway : start.expansion.network.RoundTrip way r.legs)
  (htime : r.travelTime? = some r.travelTime) (hle : r.travelTime ≤ limit)

include hactive htrace htour hway htime hle

theorem Grown.run_addTour (h : Grown start [] [] start)
    (hlinking : start.linking = (List.range start.expansion.network.edgeCount).map .mk)
    (hbest : start.master.bestAccepted = none) :
    ∃ t u, (addTour vertices : Call (Ledger α) α Bool).run start = (.ok true, u) ∧
      Grown start (r.legs.flatMap Leg.stops) r.legs t ∧ Offered r t u true := by
  have hdep : ∀ leg ∈ r.legs, start.expansion.network.IsDeparture leg :=
    fun leg hl => (Expansion.isTimely_of_trace htrace leg hl).1
  obtain ⟨used, t, hlegs, hcolumns, hlength, ht⟩ :=
    h.run_mapM hactive hlinking hdep hway.nodup_legs
  rw [List.nil_append, List.nil_append] at ht
  have hstart : start.columns = [] := List.map_eq_nil_iff.1 h.columns
  have hused : used = t.columns.map (·.2) := by
    rw [hcolumns, hstart, List.nil_append, List.map_snd_zip hlength.le]
  rw [hused] at hlegs
  obtain ⟨u, hrun, hoffered⟩ := ht.run_addRoute hactive hlegs htour hway.ne_nil htime hle
  rw [ht.record.bestAccepted, hbest] at hrun hoffered
  refine ⟨t, u, ?_, ht, hoffered⟩
  rw [Manager.run_addTour, if_pos hactive, htrace]
  exact hrun

/-- A tour that is not better than itself is not accepted again. -/
theorem Grown.run_addTour_again (h : Grown start touched r.legs start)
    (hbest : start.master.bestAccepted = some (Scalar.ofNat r.travelTime)) :
    ∃ u, (addTour vertices : Call (Ledger α) α Bool).run start = (.ok false, u) ∧
      Offered r start u false := by
  have hknown := forall₂_variableOf? (m := start) (h.columns ▸ hway.nodup_legs)
  rw [h.columns] at hknown
  have hlegs := run_mapM_of_known hactive hknown
  obtain ⟨u, hrun, hoffered⟩ := h.run_addRoute hactive hlegs htour hway.ne_nil htime hle
  have hnot : start.master.bestAccepted.all ((Scalar.ofNat r.travelTime : α) < ·) = false := by
    rw [hbest]
    exact decide_eq_false (CountsUpTo.not_ofNat_lt hle)
  rw [hnot] at hrun hoffered
  refine ⟨u, ?_, hoffered⟩
  rw [Manager.run_addTour, if_pos hactive, htrace]
  exact hrun

end

theorem run_linkingRows {n : Nat} (hle : n ≤ m.master.linkingCount) :
    (linkingRows n : Call (Ledger α) α (List RowId)).run m =
      (.ok ((List.range n).map .mk), m) := by
  have hlt : ∀ e ∈ List.range n, e < m.master.linkingCount :=
    fun e he => (List.mem_range.1 he).trans_le hle
  rw [linkingRows]
  generalize List.range n = edges at hlt ⊢
  induction edges with
  | nil => rfl
  | cons e rest ih =>
    obtain ⟨he, hrest⟩ := List.forall_mem_cons.1 hlt
    apply run_mapM_cons _ (ih hrest)
    apply run_ask_of_ok (s := m.master)
    rw [Ledger.run_linkingRow, if_pos he]

theorem run_init_of_le (hphase : m.phase = .uninitialized)
    (hle : m.expansion.network.edgeCount ≤ m.master.linkingCount) :
    (init : Call (Ledger α) α Unit).run m = (.ok (), { m with
      linking := (List.range m.expansion.network.edgeCount).map .mk, phase := .active }) := by
  rw [run_init, if_pos hphase, run_linkingRows hle]

theorem grown_of_sameModel (hmodel : Ledger.SameModel
      (Ledger.withEdges start.expansion.network.edgeCount) start.master)
    (hflow : start.flow = []) (hcolumns : start.columns = []) : Grown start [] [] start := by
  constructor
  case keeps => exact .refl start
  case incumbent => rfl
  case record => exact .refl _
  case linked =>
    intro e he
    rw [hmodel.usedRow?, Ledger.isSome_usedRow?_withEdges]
    exact he
  case rows =>
    rw [hflow]
    exact nofun
  case stops =>
    rw [hflow]
    exact .nil
  case mem_stops => simp [hflow]
  case columns => rw [hcolumns, List.map_nil]
  case costs =>
    rw [hcolumns]
    exact nofun
  case counts =>
    rw [hflow]
    exact (Ledger.hasCounts_withEdges _).of_sameModel hmodel

/-- What a manager and its ledger hold when a tour of all vertices was put into them. -/
structure HoldsTour (N : Network) (cost : Nat) (m : Manager (Ledger α) α) : Prop where
  columns : m.variableCount = N.dimension
  flow : m.flowCount = N.dimension - 1
  counts : m.master.HasCounts N.dimension (N.edgeCount + (N.dimension - 1)) (3 * N.dimension - 2)
  submission : ∃ s, m.master.submissions = #[s] ∧ s.accepted = true ∧
    s.objective = Scalar.ofNat cost
  incumbent : m.incumbent = some (Scalar.ofNat cost)
  bestBound : m.bestBound = none

/-- A further offer of a tour adds nothing but a record of its refusal. -/
structure RefusesAgain (cost : Nat) (m m' : Manager (Ledger α) α) : Prop where
  columns : m'.columns = m.columns
  flow : m'.flow = m.flow
  model : Ledger.SameModel m.master m'.master
  submission : ∃ s, m'.master.submissions = m.master.submissions.push s ∧
    s.accepted = false ∧ s.objective = Scalar.ofNat cost

structure Fresh (vertices : List Nat) (m : Manager (Ledger α) α) : Prop where
  active : m.phase = .active
  linking : m.linking = (List.range m.expansion.network.edgeCount).map .mk
  grown : Grown m [] [] m
  unseeded : m.seeded = false
  initialTour : m.initialTour = vertices
  submissions : m.master.submissions = #[]
  bestAccepted : m.master.bestAccepted = none
  incumbent : m.incumbent = none
  bestBound : m.bestBound = none

theorem HoldsTour.of_offered {vertices : List Nat} (hstart : Fresh vertices start)
    (ht : Grown start (r.legs.flatMap Leg.stops) r.legs t)
    (hway : start.expansion.network.RoundTrip way r.legs)
    (hlength : r.legs.length = start.expansion.network.dimension)
    (hoffered : Offered r t m true) :
    HoldsTour start.expansion.network r.travelTime { m with seeded := true } := by
  have hsteps : way.length = start.expansion.network.dimension - 1 := by
    rw [← hlength, hway.length_eq, Nat.add_sub_cancel]
  have hcounts := ht.counts.of_sameModel hoffered.model
  rw [hway.total_rowsOf, ht.length_flow hway, hlength, hsteps] at hcounts
  obtain ⟨s, hs, haccepted, hobjective⟩ := hoffered.submission
  rw [ht.record.submissions, hstart.submissions] at hs
  have hincumbent := hoffered.incumbent
  rw [ht.incumbent, hstart.incumbent] at hincumbent
  obtain ⟨l, incumbent, rfl⟩ := hoffered.eq
  constructor
  case columns => rw [variableCount, ← hlength, ← ht.columns, List.length_map]
  case flow => rw [flowCount, ← hsteps, ← ht.length_flow hway]
  case counts => exact hcounts
  case submission => exact ⟨s, hs, haccepted, hobjective⟩
  case incumbent => exact hincumbent
  case bestBound => exact ht.keeps.bestBound.trans hstart.bestBound

theorem RefusesAgain.of_offered (hoffered : Offered r m t false) :
    RefusesAgain r.travelTime m t := by
  have hmodel := hoffered.model
  have hsubmission := hoffered.submission
  obtain ⟨l, incumbent, rfl⟩ := hoffered.eq
  exact ⟨rfl, rfl, hmodel, hsubmission⟩

/-- A fresh manager holds its initial tour after the first search for feasibility, and does not
accept it once more. -/
theorem Fresh.run_farkasPricing {vertices : List Nat} [CountsUpTo α limit]
    (h : Fresh vertices start) (htrace : start.expansion.trace vertices = .ok r)
    (htour : r.isTour? start.expansion.network = some true)
    (hway : start.expansion.network.RoundTrip way r.legs)
    (hlength : r.legs.length = start.expansion.network.dimension)
    (htime : r.travelTime? = some r.travelTime) (hle : r.travelTime ≤ limit) :
    ∃ (m₁ m₂ : Manager (Ledger α) α) (outcome : PricingOutcome α),
      (farkasPricing : Call (Ledger α) α _).run start = (.ok outcome, m₁) ∧
      outcome.newVariables = start.expansion.network.dimension ∧ outcome.lowerBound = none ∧
      HoldsTour start.expansion.network r.travelTime m₁ ∧
      (addTour vertices : Call (Ledger α) α Bool).run m₁ = (.ok false, m₂) ∧
      RefusesAgain r.travelTime m₁ m₂ := by
  obtain ⟨t, u, hrun, ht, hoffered⟩ :=
    h.grown.run_addTour h.active htrace htour hway htime hle h.linking h.bestAccepted
  have hholds := HoldsTour.of_offered h ht hway hlength hoffered
  obtain ⟨m₁, hm₁⟩ : ∃ m₁ : Manager (Ledger α) α, m₁ = { u with seeded := true } := ⟨_, rfl⟩
  have hbest : m₁.master.bestAccepted = some (Scalar.ofNat r.travelTime) := hm₁ ▸ hoffered.best
  have hafter : m₁.phase = .active ∧ m₁.expansion = start.expansion ∧
      Grown m₁ (r.legs.flatMap Leg.stops) r.legs m₁ := by
    have hmodel := hoffered.model
    obtain ⟨l, incumbent, rfl⟩ := hoffered.eq
    subst hm₁
    exact ⟨ht.keeps.phase.trans h.active, ht.keeps.expansion, ht.rebase hmodel incumbent true⟩
  have hfarkas : (farkasPricing : Call (Ledger α) α _).run start =
      (.ok ⟨u.variableCount - start.variableCount, none, true⟩, m₁) := by
    rw [Manager.run_farkasPricing, if_pos h.active, if_neg (Bool.eq_false_iff.1 h.unseeded),
      h.initialTour, hrun, hm₁]
  have hnone : start.variableCount = 0 := by
    rw [variableCount, List.map_eq_nil_iff.1 h.grown.columns]
    rfl
  obtain ⟨hactive, hexpansion, hagain⟩ := hafter
  rw [← hexpansion] at htrace htour hway
  obtain ⟨m₂, hrefused, hoffered'⟩ :=
    hagain.run_addTour_again hactive htrace htour hway htime hle hbest
  refine ⟨m₁, m₂, _, hfarkas, ?_, rfl, hm₁ ▸ hholds, hrefused, .of_offered hoffered'⟩
  rw [hnone, Nat.sub_zero]
  exact hholds.columns

theorem exists_fresh (E : Expansion) (settings : LedgerSettings α) (pricer : Pricer α)
    (vertices : List Nat) (relaxed : Bool) :
    ∃ m, (init : Call (Ledger α) α Unit).run
        (create ((Ledger.withEdges E.network.edgeCount).apply settings) E pricer vertices relaxed) =
        (.ok (), m) ∧ Fresh vertices m ∧ m.expansion = E := by
  have hmodel := Ledger.sameModel_apply (Ledger.withEdges E.network.edgeCount) settings
  refine ⟨_, run_init_of_le rfl hmodel.linkingCount.ge, ?_, rfl⟩
  exact ⟨rfl, rfl, grown_of_sameModel hmodel rfl rfl, rfl, rfl, rfl, rfl, rfl, rfl⟩

end

/-- On an expansion that can be built, the first search for feasibility puts a feasible initial tour
into a new ledger: a variable for each of its legs, a flow row for each of its vertices but the
source, and what connects them. -/
theorem seeding_of_feasible {α : Type} [Scalar α] {name : String} {dimension source : Nat}
    {arcs : List Arc} {limit : Option Nat} {N : Network} {E : Expansion}
    (hN : Network.ofArcs name dimension source arcs limit = .ok N)
    (hE : Expansion.build? N N.horizon = some E) [CountsUpTo α N.horizon]
    (settings : LedgerSettings α) (pricer : Pricer α) (relaxed : Bool) {vertices : List Nat}
    {algorithm : String} {T : Tour} (hT : Tour.evaluate? N vertices algorithm = some T)
    (hfeasible : T.feasible = true) :
    ∃ (cost : Nat) (m m₁ m₂ : Manager (Ledger α) α) (outcome : PricingOutcome α),
      T.cost = some cost ∧
      (init : Call (Ledger α) α Unit).run (create ((Ledger.withEdges N.edgeCount).apply settings)
        E pricer vertices relaxed) = (.ok (), m) ∧
      (farkasPricing : Call (Ledger α) α _).run m = (.ok outcome, m₁) ∧
      outcome.newVariables = N.dimension ∧ outcome.lowerBound = none ∧ HoldsTour N cost m₁ ∧
      (addTour vertices : Call (Ledger α) α Bool).run m₁ = (.ok false, m₂) ∧
      RefusesAgain cost m₁ m₂ := by
  have hwf := Network.wellFormed_of_ofArcs hN
  obtain ⟨_, rfl⟩ := Expansion.ofNetwork?_eq_some_iff.1 (Expansion.build?_eq_some_iff.1 hE).1
  obtain ⟨hfits, rfl⟩ := (Tour.evaluate?_eq_some_iff hwf).1 hT
  have hcomplete := Tour.isComplete_of_feasible hfeasible
  obtain ⟨edges, hedges⟩ : ∃ edges, N.tourEdges vertices = .ok edges := by
    cases hedges : N.tourEdges vertices with
    | error reason =>
      rw [Tour.evaluate, hedges] at hfeasible
      cases hfeasible
    | ok edges => exact ⟨edges, rfl⟩
  have htotal := hfits edges hedges
  obtain ⟨_, hle, _⟩ := (Tour.feasible_iff hedges algorithm).1 hfeasible
  obtain ⟨rest, rfl, hcircuit⟩ := Network.exists_circuit hwf hedges
  obtain ⟨way, hway⟩ := hcircuit.roundTrip hcomplete
  have htrace : N.expand.trace (N.source :: rest) = .ok ⟨departInTurn 0 edges⟩ :=
    (Expansion.trace_eq_ok_iff_of_edges hedges hcircuit.ne_nil).2 ⟨rfl, hle, htotal⟩
  have htour := hcircuit.isTour?_eq hwf
  rw [hcomplete] at htour
  have hlength : (departInTurn 0 edges).length = N.dimension := by
    rw [length_departInTurn, hcircuit.length_eq, (of_decide_eq_true hcomplete).1]
  have hcost : (Route.mk (departInTurn 0 edges)).travelTime = total (edges.map (·.travelTime)) :=
    travelTime_departInTurn 0
  have htime := travelTime?_departInTurn 0 htotal
  rw [← hcost] at hle htime
  obtain ⟨m, hinit, hfresh, hexpansion⟩ :=
    exists_fresh N.expand settings pricer (N.source :: rest) relaxed
  have hnetwork : m.expansion.network = N := congrArg (·.network) hexpansion
  rw [← hexpansion] at htrace
  rw [← hnetwork] at htour hway hlength
  obtain ⟨m₁, m₂, outcome, hseed⟩ := hfresh.run_farkasPricing htrace htour hway hlength htime hle
  rw [hnetwork] at hseed
  refine ⟨_, m, m₁, m₂, outcome, ?_, hinit, hseed⟩
  rw [Tour.evaluate_eq hedges, hcost]

theorem seeding_of_feasible_triangle :
    Expansion.build? Network.triangle 10 = some Network.triangle.expand ∧
    ∃ (T : Tour) (m m₁ m₂ : Manager (Ledger Rat) Rat) (outcome : PricingOutcome Rat),
      Tour.evaluate? Network.triangle [0, 1, 2] "around" = some T ∧ T.feasible = true ∧
      (farkasPricing : Call (Ledger Rat) Rat _).run m = (.ok outcome, m₁) ∧
      outcome.newVariables = 3 ∧ m₁.flowCount = 2 ∧ m₁.master.coefficientCount = 7 ∧
      m₁.incumbent = some 3 ∧
      (addTour [0, 1, 2] : Call (Ledger Rat) Rat Bool).run m₁ = (.ok false, m₂) ∧
      m₂.columns = m₁.columns := by
  have hT : Tour.evaluate? Network.triangle [0, 1, 2] "around" =
      some ⟨[0, 1, 2], some 3, 3, true, "around"⟩ := by
    decide +kernel
  obtain ⟨cost, m, m₁, m₂, outcome, hcost, _, hrun, hnew, _, hholds, hagain, hrefuses⟩ :=
    seeding_of_feasible (α := Rat) Network.ofArcs_triangle build?_triangle {} (.path {}) false hT
      rfl
  obtain rfl : 3 = cost := Option.some.inj hcost
  exact ⟨build?_triangle, _, m, m₁, m₂, outcome, hT, rfl, hrun, hnew, hholds.flow,
    hholds.counts.coefficients, hholds.incumbent, hagain, hrefuses.columns⟩

end Manager

end TourPricing
