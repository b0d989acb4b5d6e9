import TourPricing.Proofs.Manager.Incumbent

namespace TourPricing

structure Submission.IsTour (s : Submission Rat) (N : Network) (offers : List (Offer Rat))
    (T : Route) : Prop where
  offered : ∃ o ∈ offers, o.assignment = s.assignment ∧ o.Takes N T
  objective : s.objective = T.travelTime

namespace Manager

section

variable {M α : Type} [Scalar α] [Master M α] {permitted : Leg → Prop}

/-- A run with the lower bounds that were reported on the way. -/
inductive Logged (permitted : Leg → Prop) (m : Manager M α) : List α → Manager M α → Prop
  | start : Logged permitted m [] m
  | call {bounds : List α} {m' : Manager M α} (op : Operation) : Logged permitted m bounds m' →
    (∀ leg ∈ op.legs, permitted leg) →
    Logged permitted m (bounds ++ (m'.reported op).toList) (m'.after op)
  | reorder {bounds : List α} {m' : Manager M α} {flow : List (Stop × RowId)}
    {columns : List (Leg × VariableId)} : Logged permitted m bounds m' → flow.Perm m'.flow →
    columns.Perm m'.columns → Logged permitted m bounds { m' with flow, columns }

variable {m m' m'' : Manager M α}

theorem Logged.extend {bounds : List α} (h : Logged permitted m bounds m')
    (hrun : Run permitted m' m'') : ∃ more, Logged permitted m (bounds ++ more) m'' := by
  induction hrun with
  | refl => exact ⟨[], (List.append_nil bounds).symm ▸ h⟩
  | @tail m₁ _ _ hmove ih =>
    obtain ⟨more, hlog⟩ := ih
    cases hmove with
    | call op hop =>
      refine ⟨more ++ (m₁.reported op).toList, ?_⟩
      rw [← List.append_assoc]
      exact .call op hlog hop
    | reorder hflow hcolumns => exact ⟨more, .reorder hlog hflow hcolumns⟩

theorem Run.exists_logged (h : Run permitted m m') : ∃ bounds, Logged permitted m bounds m' :=
  Logged.start.extend h

theorem Logged.bestBound_eq [Master M Rat] {m m' : Manager M Rat} {bounds : List Rat}
    (h : Logged permitted m bounds m') (hm : m.bestBound = none) :
    m'.bestBound = bounds.max? := by
  induction h with
  | start => exact hm
  | @call bounds m' op _ _ ih =>
    rw [bestBound_after, ih]
    cases m'.reported op with
    | none => rw [Option.toList_none, List.append_nil, Option.elim_none]
    | some bound => rw [Option.toList_some, max?_concat, Option.elim_some]
  | reorder _ _ _ ih => exact ih

end

theorem Run.documented {M α : Type} [Scalar α] [HasLedger M α] [Master M α] [LawfulMaster M]
    {permitted : Leg → Prop} {m m' : Manager (Recorder M α) α} (h : Run permitted m m')
    (hm : m.master.Documented) : m'.master.Documented := by
  induction h with
  | refl => exact hm
  | @tail m' _ _ hmove ih =>
    cases hmove with
    | call op _ =>
      obtain ⟨u, hu, hop⟩ := frame_after (R := Recorder.KeepsDocumented (M := M) (α := α))
        (fun _ : Leg => trivial) m' op
      rw [hop]
      exact hu.master ih
    | reorder => exact ih

/-- What the best values of a manager are after a run in which some bounds were reported, and what
they become in whatever is done next. -/
structure KeepsBest (N : Network) (bounds : List Rat)
    (m : Manager (Recorder (ScriptedMaster Rat) Rat) Rat) : Prop where
  best_accepted : m.incumbent = m.master.master.ledger.bestAccepted
  recorded : ∃ tours, List.Forall₂ (fun s T => s.IsTour N m.master.offers T)
      m.master.master.ledger.submissions.toList tours ∧
    m.incumbent = (tours.map fun T => (T.travelTime : Rat)).min?
  reported : m.bestBound = bounds.max?
  incumbent_mono : ∀ m', Run N.IsTimely m m' →
    ∀ v ∈ m.incumbent, ∃ v' ∈ m'.incumbent, v' ≤ v
  bestBound_mono : ∀ m', Run N.IsTimely m m' →
    ∀ v ∈ m.bestBound, ∃ v' ∈ m'.bestBound, v ≤ v'
  incumbent_after : ∀ op, (∀ leg ∈ op.legs, N.IsTimely leg) →
    (m.after op).master.master.ledger.submissions.size =
      m.master.master.ledger.submissions.size → (m.after op).incumbent = m.incumbent
  bestBound_after : ∀ op, (∀ outcome m', op = .reducedCostPricing →
      (reducedCostPricing : Call _ Rat (PricingOutcome Rat)).run m ≠ (.ok outcome, m')) →
    (m.after op).bestBound = m.bestBound

section

variable {n : Nat} {settings : LedgerSettings Rat} {script : MasterScript Rat}
  {expansion : Expansion} {pricer : Pricer Rat} {initialTour : List Nat} {relaxed : Bool}
  {m : Manager (Recorder (ScriptedMaster Rat) Rat) Rat}
  (hhorizon : expansion.horizon < timeLimit)
  (hrun : Run expansion.network.IsTimely
    (onScript n settings script expansion pricer initialTour relaxed).recorded m)

include hhorizon hrun

theorem tallied_of_run : m.books.Tallied := by
  have hfollows := hrun.follows (.of_horizon hhorizon)
  have hsound := sound_onScript n settings script expansion pricer initialTour relaxed
    expansion.network.IsTimely
  exact Books.Steps.tallied hfollows.steps hsound ⟨rfl, rfl⟩

theorem finds_of_run : m.expansion.Finds Rat expansion.network.IsTimely := by
  have hexpansion : m.expansion = expansion := (hrun.follows (.of_horizon hhorizon)).expansion
  rw [hexpansion]
  exact .of_horizon hhorizon

/-- Every solution on record is a tour that was offered, with its travel time as its value. -/
theorem isTour_of_run : ∀ s ∈ m.master.master.ledger.submissions,
    ∃ T, s.IsTour expansion.network m.master.offers T := by
  intro s hs
  have hdocumented : m.master.Documented := by
    apply hrun.documented
    intro s hs
    exact nomatch hs
  obtain ⟨o, ho, hassignment, hvalue⟩ := hdocumented s hs
  have hfollows := hrun.follows (.of_horizon hhorizon)
  have hsound := sound_onScript n settings script expansion pricer initialTour relaxed
    expansion.network.IsTimely
  rcases hfollows.offers o ho with ho | ⟨b, hsteps, hmakes⟩
  · exact nomatch ho
  · obtain ⟨T, hT⟩ := hmakes.takes (Books.Steps.sound hsteps hsound)
    refine ⟨T, ⟨o, ‹_›, hassignment, hT⟩, ?_⟩
    rw [hT.objective] at hvalue
    exact (Except.ok.inj hvalue).symm

theorem recorded_of_run : ∃ tours, List.Forall₂
      (fun s T => s.IsTour expansion.network m.master.offers T)
      m.master.master.ledger.submissions.toList tours ∧
    m.incumbent = (tours.map fun T => (T.travelTime : Rat)).min? := by
  obtain ⟨tours, htours⟩ := exists_forall₂ fun s hs =>
    isTour_of_run hhorizon hrun s (Array.mem_toList_iff.1 hs)
  refine ⟨tours, htours, ?_⟩
  rw [← map_eq_of_forall₂ htours fun s T h => h.objective]
  exact (tallied_of_run hhorizon hrun).incumbent

/-- The record only grows, and the incumbent is the least value on it. -/
theorem exists_values_append {m' : Manager (Recorder (ScriptedMaster Rat) Rat) Rat}
    (hnext : Run expansion.network.IsTimely m m') :
    ∃ more, m.incumbent = m.books.values.min? ∧
      m'.incumbent = (m.books.values ++ more).min? ∧
      m'.books.values = m.books.values ++ more := by
  have hsteps := (hnext.follows (finds_of_run hhorizon hrun)).steps
  obtain ⟨more, hmore⟩ := Books.Steps.submissions_prefix hsteps
  have hvalues : m'.books.values = m.books.values ++ more.map (·.objective) := by
    rw [Books.values, Books.values, ← hmore, List.map_append]
  refine ⟨_, (tallied_of_run hhorizon hrun).incumbent, ?_, hvalues⟩
  rw [← hvalues]
  exact (tallied_of_run hhorizon (hrun.trans hnext)).incumbent

end

/-- Along every run whose legs arrive at times the incumbent is the shortest tour on record, and the
best bound is the greatest one that was reported, whatever the master refuses. -/
theorem keepsBest_of_run {N : Network} {horizon n : Nat} {settings : LedgerSettings Rat}
    {script : MasterScript Rat} {expansion : Expansion} {pricer : Pricer Rat}
    {initialTour : List Nat} {relaxed : Bool}
    {m : Manager (Recorder (ScriptedMaster Rat) Rat) Rat}
    (hE : Expansion.build? N horizon = some expansion) (hhorizon : horizon < timeLimit)
    (hrun : Run N.IsTimely
      (onScript n settings script expansion pricer initialTour relaxed).recorded m) :
    (∃ bounds, Logged N.IsTimely
      (onScript n settings script expansion pricer initialTour relaxed).recorded bounds m) ∧
    ∀ bounds, Logged N.IsTimely
      (onScript n settings script expansion pricer initialTour relaxed).recorded bounds m →
      m.KeepsBest N bounds := by
  obtain ⟨rfl, rfl⟩ := Expansion.of_build? hE
  refine ⟨hrun.exists_logged, fun bounds hlog => ?_⟩
  have htallied := tallied_of_run hhorizon hrun
  have hbound := hlog.bestBound_eq rfl
  constructor
  case best_accepted => exact htallied.incumbent.trans htallied.best.symm
  case recorded => exact recorded_of_run hhorizon hrun
  case reported => exact hbound
  case incumbent_mono =>
    intro m' hnext v hv
    obtain ⟨more, hold, hnew, _⟩ := exists_values_append hhorizon hrun hnext
    rw [hnew]
    exact exists_le_min?_append (hold ▸ hv) more
  case bestBound_mono =>
    intro m' hnext v hv
    obtain ⟨more, hlog'⟩ := hlog.extend hnext
    rw [hlog'.bestBound_eq rfl]
    exact exists_max?_append_le (hbound ▸ hv) more
  case incumbent_after =>
    intro op hop hsize
    obtain ⟨more, hold, hnew, hvalues⟩ :=
      exists_values_append hhorizon hrun (.single (.call op hop))
    have hlength := congrArg List.length hvalues
    rw [Books.length_values, List.length_append, Books.length_values] at hlength
    have hmore : more = [] := by
      apply List.eq_nil_of_length_eq_zero
      exact Nat.add_left_cancel (hlength.symm.trans hsize)
    rw [hnew, hold, hmore, List.append_nil]
  case bestBound_after =>
    intro op hop
    rw [bestBound_after, reported_eq_none hop, Option.elim_none]

/-- A manager on the triangle that prices its edges and then seeds twice. The master refuses the
tour when it is offered for the first time. -/
def priced : Manager (Recorder (ScriptedMaster Rat) Rat) Rat :=
  let settings : LedgerSettings Rat := { duals := some ⟨[2, 0, 0, 0, 0]⟩, objective := some 5 }
  [.init, .reducedCostPricing, .farkasPricing, .farkasPricing].foldl after
    (onScript 5 settings ⟨fun sort n => sort == .submit && n == 1, fun _ => "", []⟩
      Network.triangle.expand (.edge {}) [0, 1, 2] false).recorded

theorem keepsBest_priced :
    Expansion.build? Network.triangle 10 = some Network.triangle.expand ∧ 10 < timeLimit ∧
    priced.incumbent = some 3 ∧ priced.bestBound = some 2 ∧
    ∃ bounds, priced.KeepsBest Network.triangle bounds := by
  have hrun : Run Network.triangle.IsTimely _ priced :=
    Run.of_operations (by simp [Operation.legs]) _
  have hlimit : 10 < timeLimit := by decide
  obtain ⟨⟨bounds, hlog⟩, hkeeps⟩ := keepsBest_of_run build?_triangle hlimit hrun
  exact ⟨build?_triangle, hlimit, by decide +kernel, by decide +kernel, bounds, hkeeps bounds hlog⟩

end Manager

end TourPricing
