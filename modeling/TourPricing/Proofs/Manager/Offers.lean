import TourPricing.Proofs.Manager.Recorded
import TourPricing.Proofs.Master.Evaluation
import TourPricing.Proofs.Tour

namespace TourPricing

/-- Along connected legs a difference between the ends of each adds up to the one between the ends
of all. -/
theorem Leg.sum_difference {legs : List Leg} (hchain : legs.IsChain fun a b => a.head = b.tail)
    {first last : Leg} (hfirst : legs.head? = some first) (hlast : legs.getLast? = some last)
    (g : Stop → Rat) :
    (legs.map fun leg => g leg.tail - g leg.head).sum = g first.tail - g last.head := by
  induction legs generalizing first with
  | nil => cases hfirst
  | cons a rest ih =>
    obtain rfl := Option.some.inj hfirst
    cases rest with
    | nil =>
      obtain rfl := Option.some.inj hlast
      simp
    | cons b rest =>
      obtain ⟨hab, hchain⟩ := List.isChain_cons_cons.1 hchain
      have hsum := ih hchain rfl hlast
      rw [List.map_cons, List.sum_cons, hsum, hab]
      ring

theorem sum_eq_of_forall₂ {β γ : Type} {R : β → γ → Prop} {l : List β} {l' : List γ}
    (h : List.Forall₂ R l l') {f : β → Rat} {g : γ → Rat} (hfg : ∀ a b, R a b → f a = g b) :
    (l.map f).sum = (l'.map g).sum :=
  congrArg List.sum (map_eq_of_forall₂ h hfg)

theorem sum_indicator {l : List Nat} (h : l.Nodup) (n : Nat) :
    (l.map fun a => if a = n then (1 : Rat) else 0).sum = if n ∈ l then 1 else 0 := by
  rw [List.sum_map_ite_eq, h.count]
  simp

theorem cast_total {β : Type} (l : List β) (f : β → Nat) :
    (total (l.map f) : Rat) = (l.map fun a => (f a : Rat)).sum := by
  induction l with
  | nil => rfl
  | cons a rest ih => rw [List.map_cons, total_cons, List.map_cons, List.sum_cons, Nat.cast_add, ih]

/-- An offered assignment takes a tour and satisfies the flow model. -/
structure Offer.Takes (o : Offer Rat) (N : Network) (T : Route) : Prop where
  tour : T.isTour? N = some true
  length : o.assignment.length = N.dimension
  distinct : (o.assignment.map (·.1)).Nodup
  ones : ∀ x ∈ o.assignment, x.2 = 1
  flow : ∀ r : RowId, o.ledger.linkingCount ≤ r.index → (o.ledger.usedRow? r).isSome →
    o.ledger.rowValue o.assignment r = 0
  linking : ∀ r : RowId, r.index < o.ledger.linkingCount →
    o.ledger.rowValue o.assignment r = if r.index ∈ T.legs.map (·.edge) then 1 else 0
  objective : o.ledger.value o.assignment = .ok (T.travelTime : Rat)
  travelTime : T.travelTime? = some T.travelTime
  arrival : T.travelTime = T.arrival

section

variable {N : Network} {b : Books Rat} {T : Route} {leg : Leg} {v : VariableId}

theorem Route.nodup_edges (htour : T.isTour? N = some true)
    (hdep : ∀ leg ∈ T.legs, N.IsDeparture leg) : (T.legs.map (·.edge)).Nodup := by
  have hheads := (isTour?_eq_some_true htour).2
  have hmap : T.legs.map (·.head.vertex) =
      (T.legs.map (·.edge)).map fun e => ((N.edge? e).map (·.target)).getD 0 := by
    rw [List.map_map]
    refine List.map_congr_left fun leg hl => ?_
    obtain ⟨e, he, hhead⟩ := (hdep leg hl).exists_edge
    rw [Function.comp_apply, he, hhead]
    rfl
  rw [hmap] at hheads
  exact hheads.of_map

theorem Route.travelTime_eq_arrival (htour : T.isTour? N = some true)
    (hdep : ∀ leg ∈ T.legs, N.IsDeparture leg) : T.travelTime = T.arrival := by
  obtain ⟨⟨_, hconnected, hstart, hend⟩, _⟩ := isTour?_eq_some_true htour
  obtain ⟨first, hfirst, hsource⟩ := Option.map_eq_some_iff.1 hstart
  obtain ⟨last, hlast, _⟩ := Option.map_eq_some_iff.1 hend
  have hsum := Leg.sum_difference (isConnected_iff.1 hconnected) hfirst hlast
    fun s => -(s.time : Rat)
  have htravel : (T.travelTime : Rat) =
      (T.legs.map fun leg => -(leg.tail.time : Rat) - -(leg.head.time : Rat)).sum := by
    rw [travelTime, cast_total]
    refine congrArg List.sum (List.map_congr_left fun leg hl => ?_)
    rw [Leg.travelTime, Nat.cast_sub (hdep leg hl).time_le]
    ring
  have htime : first.tail.time = 0 := congrArg Stop.time hsource
  have harrival : T.arrival = last.head.time := by
    rw [arrival, hlast]
    rfl
  rw [hsum, htime, ← harrival] at htravel
  have hcast : (T.travelTime : Rat) = T.arrival := by
    rw [htravel]
    simp
  exact Nat.cast_injective hcast

theorem Route.travelTime?_of_isTour? (htour : T.isTour? N = some true)
    (htimely : ∀ leg ∈ T.legs, N.IsTimely leg) : T.travelTime? = some T.travelTime := by
  have hdep : ∀ leg ∈ T.legs, N.IsDeparture leg := fun leg hl => (htimely leg hl).1
  obtain ⟨last, hlast, _⟩ := Option.map_eq_some_iff.1 (isTour?_eq_some_true htour).1.2.2.2
  rw [travelTime?_eq_some_iff]
  refine ⟨fun leg hl => (hdep leg hl).time_le, rfl, ?_⟩
  rw [travelTime_eq_arrival htour hdep, arrival, hlast]
  exact (htimely last (List.mem_of_getLast? hlast)).2

namespace Books

/-- What the variable of a leg adds to a row: it leaves its tail, enters its head and uses its
edge. -/
theorem Sound.sum_coefficientsAt (hs : b.Sound N N.IsDeparture)
    (h : (leg, v) ∈ b.columns) (r : RowId) :
    (b.ledger.coefficientsAt r v).sum =
      (if (leg.tail, r) ∈ b.flow then 1 else 0) - (if (leg.head, r) ∈ b.flow then 1 else 0) +
        if leg.edge = r.index then 1 else 0 := by
  obtain ⟨tail, head, htail, hhead, hall⟩ := (hs.posted _ h).coefficients
  have hrow {s : Stop} {row : Option RowId} (hat : FlowAt N b.flow s row) :
      row = some r ↔ (s, r) ∈ b.flow := by
    cases row with
    | none =>
      refine ⟨nofun, fun hr => absurd hat (hs.flow_row _ hr).1⟩
    | some t =>
      refine ⟨fun he => Option.some.inj he ▸ hat.2, fun hr => ?_⟩
      rw [hs.flow_table.value_unique hat.2 hr]
  have hsum (p : Prop) [Decidable p] (a : Rat) :
      (if p then [a] else []).sum = if p then a else 0 := by
    split <;> simp
  have hone : (Scalar.ofNat 1 : Rat) = 1 := Nat.cast_one
  have hminus : (-Scalar.ofNat 1 : Rat) = -1 := congrArg Neg.neg hone
  rw [hall, amounts_entries, List.sum_append, List.sum_append, hsum, hsum, hsum, hminus, hone]
  simp only [hrow htail, hrow hhead, RowId.ext_iff, eq_comm (a := r.index)]
  split_ifs <;> ring

theorem Sound.permitted_of_forall₂ {permitted : Leg → Prop} {used : List VariableId}
    (hs : b.Sound N permitted)
    (hused : List.Forall₂ (fun leg v => (leg, v) ∈ b.columns) T.legs used) :
    ∀ leg ∈ T.legs, permitted leg :=
  ((List.forall₂_and_left _ _).1 (hused.imp fun _ _ h => ⟨hs.permitted _ h, h⟩)).1

section

variable {used : List VariableId} (hs : b.Sound N N.IsDeparture)
  (hused : List.Forall₂ (fun leg v => (leg, v) ∈ b.columns) T.legs used)

include hs hused

theorem Sound.edge_lt_of_forall₂ : ∀ leg ∈ T.legs, leg.edge < b.ledger.linkingCount := by
  have hlt (leg : Leg) (v : VariableId) (h : (leg, v) ∈ b.columns) :
      leg.edge < b.ledger.linkingCount := by
    have hactive : b.phase = .active := by
      by_contra hp
      rw [(hs.idle hp).2] at h
      exact nomatch h
    exact (hs.posted _ h).edge_lt.trans_le (hs.edges hactive)
  exact ((List.forall₂_and_left _ _).1 (hused.imp fun leg v h => ⟨hlt leg v h, h⟩)).1

theorem Sound.nodup_of_forall₂ (htour : T.isTour? N = some true) : used.Nodup := by
  have hunique : Relator.BiUnique fun leg v => (leg, v) ∈ b.columns :=
    ⟨fun _ _ _ h h' => hs.column_table.key_unique h h',
      fun _ _ _ h h' => hs.column_table.value_unique h h'⟩
  exact (List.rel_nodup hunique hused).1 (Route.isTour?_eq_some_true htour).2.of_map

/-- A tour comes to one in the rows of its edges, and to zero in all others. -/
theorem Sound.rowValue_eq (htour : T.isTour? N = some true) (r : RowId) :
    b.ledger.rowValue (used.map fun v => (v, 1)) r =
      if r.index ∈ T.legs.map (·.edge) then 1 else 0 := by
  obtain ⟨⟨_, hconnected, hstart, hend⟩, _⟩ := Route.isTour?_eq_some_true htour
  obtain ⟨first, hfirst, hsource⟩ := Option.map_eq_some_iff.1 hstart
  obtain ⟨last, hlast, htarget⟩ := Option.map_eq_some_iff.1 hend
  have hkeys : ((used.map fun v => (v, (1 : Rat))).map (·.1)).Nodup := by
    rw [List.map_map]
    exact (List.map_id used).symm ▸ hs.nodup_of_forall₂ hused htour
  have hflow := Leg.sum_difference (Route.isConnected_iff.1 hconnected) hfirst hlast
    fun s => if (s, r) ∈ b.flow then 1 else 0
  have hnone {s : Stop} (h : s.vertex = N.source) : (s, r) ∉ b.flow :=
    fun hr => (hs.flow_row _ hr).1 h
  rw [if_neg (hnone (hsource ▸ rfl)), if_neg (hnone htarget), sub_zero] at hflow
  have hlegs := sum_eq_of_forall₂ hused (g := fun v => (b.ledger.coefficientsAt r v).sum)
    fun leg v h => (hs.sum_coefficientsAt h r).symm
  rw [List.sum_map_add, hflow, zero_add] at hlegs
  have hedges := sum_indicator (Route.nodup_edges htour (hs.permitted_of_forall₂ hused)) r.index
  rw [List.map_map] at hedges
  rw [Ledger.rowValue_eq hkeys, List.map_map]
  simp only [Function.comp_def, mul_one] at hedges ⊢
  rw [← hlegs, hedges]

theorem Sound.value_eq :
    b.ledger.value (used.map fun v => (v, 1)) = .ok (T.travelTime : Rat) := by
  let costs (v : VariableId) : Rat := ((b.ledger.usedVariable? v).map (·.objective)).getD 0
  have hcost (leg : Leg) (v : VariableId) (h : (leg, v) ∈ b.columns) :
      (b.ledger.usedVariable? v).map (·.objective) = some (costs v) ∧ leg.travelTime = costs v := by
    have hobjective := (hs.posted _ h).objective
    simp only [costs, hobjective]
    exact ⟨rfl, rfl⟩
  have hused' : List.Forall₂ (fun v leg => (leg, v) ∈ b.columns) used T.legs := hused.flip
  have hall := ((List.forall₂_and_left _ _).1 (hused'.imp fun v leg h => ⟨(hcost leg v h).1, h⟩)).1
  have hvalue : b.ledger.value (used.map fun v => (v, 1)) = _ :=
    Ledger.value_eq costs fun x hx => by
      obtain ⟨v, hv, rfl⟩ := List.mem_map.1 hx
      exact hall v hv
  have hsum := sum_eq_of_forall₂ hused (g := costs) fun leg v h => (hcost leg v h).2
  rw [hvalue, List.map_map, Route.travelTime, cast_total, hsum]
  simp only [Function.comp_def, mul_one]

end

/-- What is offered while the books are sound takes a tour. -/
theorem Makes.takes {o : Offer Rat} (h : b.Makes N o) (htimely : b.Sound N N.IsTimely) :
    ∃ T, o.Takes N T := by
  have hs : b.Sound N N.IsDeparture := htimely.mono fun _ hleg => hleg.1
  obtain ⟨hledger, T, used, htour, hused, hassignment⟩ := h
  have hone : (Scalar.ofNat 1 : Rat) = 1 := Nat.cast_one
  rw [hone] at hassignment
  have hdep := hs.permitted_of_forall₂ hused
  have hkeys : o.assignment.map (·.1) = used := by
    rw [hassignment, List.map_map]
    exact List.map_id used
  have hrow (r : RowId) : o.ledger.rowValue o.assignment r =
      if r.index ∈ T.legs.map (·.edge) then 1 else 0 := by
    rw [hledger, hassignment]
    exact hs.rowValue_eq hused htour r
  refine ⟨T, ?_⟩
  constructor
  case tour => exact htour
  case length =>
    rw [hassignment, List.length_map, ← hused.length_eq]
    exact (Route.isTour?_eq_some_true htour).1.1
  case distinct => exact hkeys ▸ hs.nodup_of_forall₂ hused htour
  case ones =>
    intro x hx
    rw [hassignment] at hx
    obtain ⟨v, _, rfl⟩ := List.mem_map.1 hx
    rfl
  case flow =>
    intro r hr _
    refine (hrow r).trans (if_neg fun hmem => ?_)
    obtain ⟨leg, hl, he⟩ := List.mem_map.1 hmem
    have hlt := hs.edge_lt_of_forall₂ hused leg hl
    rw [he, ← hledger] at hlt
    exact Nat.not_lt.2 hr hlt
  case linking => exact fun r _ => hrow r
  case objective =>
    rw [hledger, hassignment]
    exact hs.value_eq hused
  case travelTime => exact Route.travelTime?_of_isTour? htour (htimely.permitted_of_forall₂ hused)
  case arrival => exact Route.travelTime_eq_arrival htour hdep

end Books

end

namespace Manager

/-- Whatever is refused in a run along departures that arrive at times, it can be recorded, and all
that is offered to the master takes a tour. -/
theorem takes_of_run {N : Network} {horizon n : Nat} {settings : LedgerSettings Rat}
    {script : MasterScript Rat} {expansion : Expansion} {pricer : Pricer Rat}
    {initialTour : List Nat} {relaxed : Bool} {m : Manager (ScriptedMaster Rat) Rat}
    (hE : Expansion.build? N horizon = some expansion) (hhorizon : horizon < timeLimit)
    (hrun : Run N.IsTimely (onScript n settings script expansion pricer initialTour relaxed) m) :
    (∃ r, Run N.IsTimely
        (onScript n settings script expansion pricer initialTour relaxed).recorded r ∧
      r.erase = m) ∧
    ∀ r, Run N.IsTimely
        (onScript n settings script expansion pricer initialTour relaxed).recorded r →
      r.erase = m → ∀ o ∈ r.master.offers, ∃ T, o.Takes N T := by
  obtain ⟨rfl, rfl⟩ := Expansion.of_build? hE
  refine ⟨hrun.exists_recorded, fun r hr _ o ho => ?_⟩
  have hfollows := hr.follows (.of_horizon hhorizon)
  rcases hfollows.offers o ho with ho | ⟨b, hsteps, hmakes⟩
  · exact nomatch ho
  · have hstart := sound_onScript n settings script expansion pricer initialTour relaxed
      expansion.network.IsTimely
    exact hmakes.takes (Books.Steps.sound hsteps hstart)

/-- A manager on the triangle that offers a tour twice. The master does not even look at the first
offer. -/
def reoffered : Manager (Recorder (ScriptedMaster Rat) Rat) Rat :=
  [.init, .addTour [0, 1, 2], .addTour [0, 1, 2]].foldl after
    (onScript 5 {} ⟨fun sort n => sort == .submit && n == 1, fun _ => "", []⟩
      Network.triangle.expand (.path {}) [0, 1, 2] false).recorded

theorem takes_reoffered :
    Expansion.build? Network.triangle 10 = some Network.triangle.expand ∧ 10 < timeLimit ∧
    reoffered.master.offers.length = 2 ∧ reoffered.master.master.ledger.submissions.size = 1 ∧
    ∀ o ∈ reoffered.master.offers, ∃ T, o.Takes Network.triangle T := by
  have hrun : Run Network.triangle.IsTimely _ reoffered :=
    Run.of_operations (by simp [Operation.legs]) _
  have hlimit : 10 < timeLimit := by decide
  exact ⟨build?_triangle, hlimit, by decide +kernel, by decide +kernel,
    (takes_of_run build?_triangle hlimit hrun.erase).2 reoffered hrun rfl⟩

end Manager

end TourPricing
