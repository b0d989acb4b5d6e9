import TourPricing.Proofs.Manager.Run
import TourPricing.Proofs.Preserves

namespace TourPricing

variable {M α β : Type}

/-- A relation between states of a master to which every request keeps. -/
class Respected [Master M α] (R : M → M → Prop) : Prop extends IsPreorder M R where
  duals (kind : CostKind) : Preserves R (Master.duals kind : Ask M (Duals α))
  objective : Preserves R (Master.objective : Ask M α)
  linkingRow (e : Nat) : Preserves R (Master.linkingRow e : Ask M RowId)
  addVariable (name : String) (objective : α) (domain : Domain) :
    Preserves R (Master.addVariable name objective domain : Ask M VariableId)
  addRow (name : String) (rhs : α) : Preserves R (Master.addRow name rhs : Ask M RowId)
  addCoefficient (r : RowId) (v : VariableId) (a : α) :
    Preserves R (Master.addCoefficient r v a : Ask M Unit)
  submit (assignment : List (VariableId × α)) :
    Preserves R (Master.submit assignment : Ask M Bool)
  releaseVariable (v : VariableId) : Preserves R (Master.releaseVariable v : Ask M Unit)
  releaseRow (r : RowId) : Preserves R (Master.releaseRow r : Ask M Unit)
  reoptimize : Preserves R (Master.reoptimize : Ask M LpStatus)

/-- Nothing is asked of the master. -/
instance [Master M α] : Respected fun _ _ : M => True where
  refl _ := trivial
  trans _ _ _ _ _ := trivial
  duals _ _ := trivial
  objective _ := trivial
  linkingRow _ _ := trivial
  addVariable _ _ _ _ := trivial
  addRow _ _ _ := trivial
  addCoefficient _ _ _ _ := trivial
  submit _ _ := trivial
  releaseVariable _ _ := trivial
  releaseRow _ _ := trivial
  reoptimize _ := trivial

namespace Manager

/-- One change on the way through a call. -/
inductive Edit (R : M → M → Prop) (permitted : Leg → Prop) (m : Manager M α) : Manager M α → Prop
  | master {s : M} : R m.master s → Edit R permitted m { m with master := s }
  | flow (s : Stop) (r : RowId) : Edit R permitted m { m with flow := m.flow ++ [(s, r)] }
  | column (leg : Leg) (v : VariableId) : m.variableOf? leg = none → permitted leg →
    Edit R permitted m { m with columns := m.columns ++ [(leg, v)] }
  | incumbent (value : α) : Edit R permitted m { m with incumbent := some value }
  | pricer (p : Pricer α) : Edit R permitted m { m with pricer := p }

abbrev Edits (R : M → M → Prop) (permitted : Leg → Prop) : Manager M α → Manager M α → Prop :=
  Relation.ReflTransGen (Edit R permitted)

/-- What no edit touches. -/
structure Keeps (m m' : Manager M α) : Prop where
  expansion : m'.expansion = m.expansion
  initialTour : m'.initialTour = m.initialTour
  phase : m'.phase = m.phase
  linking : m'.linking = m.linking
  seeded : m'.seeded = m.seeded
  bestBound : m'.bestBound = m.bestBound

variable {R : M → M → Prop} {permitted permitted' : Leg → Prop} {m m' m'' : Manager M α}
  {leg : Leg} {v : VariableId}

namespace Keeps

theorem refl (m : Manager M α) : Keeps m m :=
  ⟨rfl, rfl, rfl, rfl, rfl, rfl⟩

theorem trans (h : Keeps m m') (h' : Keeps m' m'') : Keeps m m'' where
  expansion := h'.expansion.trans h.expansion
  initialTour := h'.initialTour.trans h.initialTour
  phase := h'.phase.trans h.phase
  linking := h'.linking.trans h.linking
  seeded := h'.seeded.trans h.seeded
  bestBound := h'.bestBound.trans h.bestBound

end Keeps

theorem isSome_variableOf?_iff : (m.variableOf? leg).isSome ↔ leg ∈ m.columns.map (·.1) := by
  rw [variableOf?, List.lookup_isSome_iff, List.mem_map]
  simp only [beq_iff_eq]
  simp only [eq_comm]

theorem variableOf?_eq_none_iff : m.variableOf? leg = none ↔ leg ∉ m.columns.map (·.1) := by
  rw [← isSome_variableOf?_iff, Option.not_isSome_iff_eq_none]

namespace Edits

theorem keeps (h : Edits R permitted m m') : Keeps m m' := by
  induction h with
  | refl => exact .refl m
  | tail _ hedit ih =>
    apply ih.trans
    cases hedit <;> exact ⟨rfl, rfl, rfl, rfl, rfl, rfl⟩

theorem master [IsPreorder M R] (h : Edits R permitted m m') : R m.master m'.master := by
  induction h with
  | refl => exact refl_of R m.master
  | tail _ hedit ih =>
    cases hedit with
    | master hs => exact trans_of R ih hs
    | flow | column | incumbent | pricer => exact ih

theorem exists_columns (h : Edits R permitted m m') :
    ∃ added, m'.columns = m.columns ++ added ∧ ∀ p ∈ added, permitted p.1 := by
  induction h with
  | refl => exact ⟨[], (List.append_nil _).symm, nofun⟩
  | tail _ hedit ih =>
    obtain ⟨added, hcolumns, hadded⟩ := ih
    cases hedit with
    | column leg v _ hleg =>
      refine ⟨added ++ [(leg, v)], ?_, ?_⟩
      · rw [← List.append_assoc, ← hcolumns]
      · intro p hp
        rcases List.mem_append.1 hp with hp | hp
        · exact hadded p hp
        · exact List.mem_singleton.1 hp ▸ hleg
    | master | flow | incumbent | pricer => exact ⟨added, hcolumns, hadded⟩

theorem nodup (h : Edits R permitted m m') (hm : (m.columns.map (·.1)).Nodup) :
    (m'.columns.map (·.1)).Nodup := by
  induction h with
  | refl => exact hm
  | tail _ hedit ih =>
    cases hedit with
    | column leg v hnew _ =>
      rw [List.map_append, List.map_singleton, ← List.concat_eq_append]
      exact ih.concat (variableOf?_eq_none_iff.1 hnew)
    | master | flow | incumbent | pricer => exact ih

theorem mono (h : Edits R permitted m m') (hpermitted : ∀ leg, permitted leg → permitted' leg) :
    Edits R permitted' m m' := by
  apply Relation.ReflTransGen.mono _ _ _ h
  intro m m' hedit
  cases hedit with
  | master hs => exact .master hs
  | flow s r => exact .flow s r
  | column leg v hnew hleg => exact .column leg v hnew (hpermitted _ hleg)
  | incumbent value => exact .incumbent value
  | pricer p => exact .pricer p

theorem columns_eq (h : Edits R (fun _ => False) m m') : m'.columns = m.columns := by
  obtain ⟨added, hcolumns, hadded⟩ := h.exists_columns
  rw [hcolumns, List.eq_nil_iff_forall_not_mem.2 hadded, List.append_nil]

theorem isSome_variableOf? (h : Edits R permitted m m') (hleg : (m.variableOf? leg).isSome) :
    (m'.variableOf? leg).isSome := by
  obtain ⟨added, hcolumns, _⟩ := h.exists_columns
  rw [isSome_variableOf?_iff] at hleg ⊢
  rw [hcolumns, List.map_append]
  exact List.mem_append_left _ hleg

theorem variableCount_le (h : Edits R permitted m m') : m.variableCount ≤ m'.variableCount := by
  obtain ⟨added, hcolumns, _⟩ := h.exists_columns
  rw [variableCount, variableCount, hcolumns, List.length_append]
  exact Nat.le_add_right _ _

end Edits

theorem preserves_ask {request : Ask M β} (h : Preserves R request) :
    Preserves (Edits R permitted) (ask request : Call M α β) :=
  fun m => .single (.master (h m.master))

theorem eq_of_run_ask {request : Ask M β} {result : Except (PricingError α) β}
    (h : (ask request : Call M α β).run m = (result, m')) : ∃ s, m' = { m with master := s } :=
  ⟨_, (congrArg Prod.snd h).symm⟩

theorem run_ensureActive (m : Manager M α) : (ensureActive : Call M α Unit).run m =
    (if m.phase = .active then .ok () else .error (.invalidState m.phase), m) := by
  change (if m.phase ≠ .active then throw (.invalidState m.phase) else pure () :
    Call M α Unit).run m = _
  by_cases hactive : m.phase = .active
  · rw [if_neg (not_not.2 hactive), if_pos hactive]
    rfl
  · rw [if_pos hactive, if_neg hactive]
    rfl

theorem run_ensureActive_bind (m : Manager M α) (c : Call M α β) :
    (ensureActive >>= fun _ => c : Call M α β).run m =
      if m.phase = .active then c.run m else (.error (.invalidState m.phase), m) := by
  rw [run_bind, run_ensureActive]
  by_cases hactive : m.phase = .active
  · rw [if_pos hactive, if_pos hactive]
  · rw [if_neg hactive, if_neg hactive]

theorem run_trace (m : Manager M α) (vertices : List Nat) :
    (trace vertices : Call M α Route).run m = match m.expansion.trace vertices with
      | .ok r => (.ok r, m)
      | .error reason => (.error (.untraceable reason), m) := by
  change (match m.expansion.trace vertices with
    | .ok r => pure r
    | .error reason => throw (.untraceable reason) : Call M α Route).run m = _
  cases m.expansion.trace vertices <;> rfl

theorem preserves_ensureActive {ρ : Manager M α → Manager M α → Prop}
    [IsPreorder (Manager M α) ρ] : Preserves ρ (ensureActive : Call M α Unit) := by
  intro m
  rw [run_ensureActive]
  exact refl_of ρ m

section

variable [Scalar α] [Master M α]

/-- The part of `materialize` that is about a leg without a variable: the rows and the column in the
master, before the variable is listed. -/
def enterLeg (leg : Leg) : Call M α VariableId := do
  let tail ← flowRow? leg.tail
  let head ← flowRow? leg.head
  let some link := (← get).linking[leg.edge]?
    | throw (.master (.missingLinkingRow leg.edge))
  let domain := if (← get).relaxed then .continuous else .binary
  let name := s!"x_{leg.edge}_{leg.tail.time}"
  let some time := leg.travelTime? | throw .timeOverflow
  let v ← ask (Master.addVariable name (Scalar.ofNat time) domain)
  try ask (enterColumn v tail head link)
  catch e =>
    ask (Master.releaseVariable v)
    throw e
  pure v

theorem materialize_eq (leg : Leg) : (materialize leg : Call M α VariableId) = (do
    ensureActive
    match (← get).variableOf? leg with
    | some v => pure v
    | none => do
      let v ← enterLeg leg
      modify fun m => { m with columns := m.columns ++ [(leg, v)] }
      pure v) := by
  rw [materialize]
  congr 1
  funext _
  congr 1
  funext m
  cases m.variableOf? leg with
  | some v => rfl
  | none =>
    simp only [enterLeg, bind_assoc]
    congr 1
    funext tail
    congr 1
    funext head
    congr 1
    funext m
    cases m.linking[leg.edge]? with
    | some link =>
      cases leg.travelTime? with
      | some time => simp only [bind_assoc, pure_bind]
      | none => rfl
    | none => rfl

theorem run_materialize (m : Manager M α) (leg : Leg) :
    (materialize leg : Call M α VariableId).run m = if m.phase = .active then
      match m.variableOf? leg with
      | some v => (.ok v, m)
      | none => match (enterLeg leg : Call M α VariableId).run m with
        | (.ok v, t) => (.ok v, { t with columns := t.columns ++ [(leg, v)] })
        | (.error e, t) => (.error e, t)
      else (.error (.invalidState m.phase), m) := by
  rw [materialize_eq, run_ensureActive_bind]
  have hget (k : Manager M α → Call M α VariableId) : (get >>= k).run m = (k m).run m := rfl
  rw [hget]
  cases m.variableOf? leg with
  | some v => rfl
  | none =>
    congr 1
    change (enterLeg leg >>= fun v => _ : Call M α VariableId).run m = _
    rw [run_bind]
    rcases (enterLeg leg : Call M α VariableId).run m with ⟨_ | _, _⟩ <;> rfl

section

variable [hR : Respected R]

omit [Scalar α] in
theorem preserves_reoptimize : Preserves (Edits R permitted) (reoptimize : Call M α LpStatus) :=
  preserves_ask hR.reoptimize

theorem preserves_flowRow (s : Stop) :
    Preserves (Edits R permitted) (flowRow s : Call M α RowId) := by
  refine preserves_bind preserves_get fun m => ?_
  split
  · exact preserves_pure _
  · apply preserves_bind (preserves_ask (hR.addRow _ _))
    intro r
    refine preserves_bind (preserves_modify fun m => .single (.flow s r)) fun _ => ?_
    exact preserves_pure r

theorem preserves_flowRow? (s : Stop) :
    Preserves (Edits R permitted) (flowRow? s : Call M α (Option RowId)) := by
  refine preserves_bind preserves_get fun m => ?_
  split
  · exact preserves_pure _
  · exact preserves_map _ (preserves_flowRow s)

theorem preserves_enterColumn (v : VariableId) (tail head : Option RowId) (link : RowId) :
    Preserves R (enterColumn v tail head link : Ask M Unit) := by
  rw [enterColumn_eq]
  exact preserves_forM fun p _ => hR.addCoefficient p.1 v p.2

theorem preserves_enterLeg (leg : Leg) :
    Preserves (Edits R permitted) (enterLeg leg : Call M α VariableId) := by
  apply preserves_bind (preserves_flowRow? _)
  intro tail
  apply preserves_bind (preserves_flowRow? _)
  intro head
  refine preserves_bind preserves_get fun m => ?_
  split
  · refine preserves_bind preserves_get fun m => ?_
    cases leg.travelTime? with
    | none => exact preserves_throw _
    | some time =>
      apply preserves_bind (preserves_ask (hR.addVariable _ _ _))
      intro v
      apply preserves_bind
      · apply preserves_tryCatch (preserves_ask (preserves_enterColumn v _ _ _))
        intro e
        apply preserves_bind (preserves_ask (hR.releaseVariable v))
        exact fun _ => preserves_throw e
      · exact fun _ => preserves_pure v
  · exact preserves_throw _

theorem preserves_materialize (hleg : permitted leg) :
    Preserves (Edits R permitted) (materialize leg : Call M α VariableId) := by
  intro m
  rw [run_materialize]
  split
  · cases hnew : m.variableOf? leg with
    | some v => exact .refl
    | none =>
      have henter : Edits R (fun _ => False) m ((enterLeg leg : Call M α VariableId).run m).2 :=
        preserves_enterLeg leg m
      dsimp only
      rcases hrun : (enterLeg leg : Call M α VariableId).run m with ⟨e | v, t⟩ <;>
        rw [hrun] at henter
      · exact henter.mono fun _ => False.elim
      · apply (henter.mono fun _ => False.elim).tail
        apply Edit.column leg v _ hleg
        rwa [variableOf?, henter.columns_eq]
  · exact .refl

/-- The part of `addRoute` that comes once its legs have variables. -/
def offerRoute (r : Route) (used : List VariableId) : Call M α Bool := do
  match r.isTour? (← get).expansion.network with
  | none => throw .unknownVertex
  | some false => pure false
  | some true =>
    let accepted ← ask (Master.submit (used.map fun v => (v, Scalar.ofNat 1)))
    if accepted then
      let some time := r.travelTime? | throw .timeOverflow
      let value : α := Scalar.ofNat time
      modify fun m =>
        if m.incumbent.all (value < ·) then { m with incumbent := some value } else m
    pure accepted

omit hR in
theorem addRoute_eq (r : Route) : (addRoute r : Call M α Bool) = (do
    ensureActive
    let used ← r.legs.mapM materialize
    offerRoute r used) :=
  rfl

theorem preserves_offerRoute (r : Route) (used : List VariableId) :
    Preserves (Edits R permitted) (offerRoute r used : Call M α Bool) := by
  refine preserves_bind preserves_get fun m => ?_
  split
  · exact preserves_throw _
  · exact preserves_pure _
  · apply preserves_bind (preserves_ask (hR.submit _))
    intro accepted
    split
    · split
      · apply preserves_bind
        · apply preserves_modify
          intro m
          split
          · exact .single (.incumbent _)
          · exact .refl
        · exact fun _ => preserves_pure accepted
      · exact preserves_throw _
    · exact preserves_pure accepted

theorem preserves_addRoute {r : Route} (hr : ∀ leg ∈ r.legs, permitted leg) :
    Preserves (Edits R permitted) (addRoute r : Call M α Bool) := by
  rw [addRoute_eq]
  refine preserves_bind preserves_ensureActive fun _ => ?_
  apply preserves_bind (preserves_mapM fun leg hl => preserves_materialize (hr leg hl))
  exact preserves_offerRoute r

omit hR in
theorem isSome_of_run_materialize
    (h : (materialize leg : Call M α VariableId).run m = (.ok v, m')) :
    (m'.variableOf? leg).isSome := by
  rw [run_materialize] at h
  split at h
  · split at h
    · rename_i hv
      cases h
      rw [hv]
      rfl
    · split at h
      · cases h
        rw [isSome_variableOf?_iff, List.map_append]
        exact List.mem_append_right _ (List.mem_singleton_self leg)
      · cases h
  · cases h

theorem isSome_of_run_mapM (R : M → M → Prop) [Respected R] {legs : List Leg}
    {used : List VariableId} (h : (legs.mapM materialize : Call M α _).run m = (.ok used, m')) :
    ∀ leg ∈ legs, (m'.variableOf? leg).isSome := by
  induction legs generalizing m used with
  | nil => exact nofun
  | cons first rest ih =>
    rw [List.mapM_cons] at h
    obtain ⟨v, t, hfirst, h⟩ := exists_of_run_bind_ok h
    obtain ⟨others, u, hrest, h⟩ := exists_of_run_bind_ok h
    cases h
    have hkept : Edits R (fun _ => True) t ((rest.mapM materialize : Call M α _).run t).2 :=
      preserves_mapM (fun _ _ => preserves_materialize trivial) t
    rw [hrest] at hkept
    intro leg hl
    rcases List.mem_cons.1 hl with rfl | hl
    · exact hkept.isSome_variableOf? (isSome_of_run_materialize hfirst)
    · exact ih hrest leg hl

theorem isSome_of_run_addRoute (R : M → M → Prop) [Respected R] {r : Route} {accepted : Bool}
    (h : (addRoute r : Call M α Bool).run m = (.ok accepted, m')) :
    ∀ leg ∈ r.legs, (m'.variableOf? leg).isSome := by
  rw [addRoute_eq] at h
  obtain ⟨_, t, _, h⟩ := exists_of_run_bind_ok h
  obtain ⟨used, u, hlegs, h⟩ := exists_of_run_bind_ok h
  have hkept : Edits R (fun _ => True) u ((offerRoute r used : Call M α Bool).run u).2 :=
    preserves_offerRoute r used u
  rw [h] at hkept
  intro leg hl
  exact hkept.isSome_variableOf? (isSome_of_run_mapM R hlegs leg hl)

theorem preserves_ofMaster (kind : CostKind) (incumbent bestBound : Option α) :
    Preserves R (Round.ofMaster kind incumbent bestBound : Ask M (Round α)) := by
  apply preserves_bind (hR.duals kind)
  intro duals
  cases kind with
  | reduced =>
    apply preserves_bind hR.objective
    intro _
    exact preserves_bind preserves_get fun _ => preserves_pure _
  | farkas =>
    refine preserves_bind (preserves_pure _) fun _ => ?_
    exact preserves_bind preserves_get fun _ => preserves_pure _

omit hR in
theorem run_addTour (m : Manager M α) (vertices : List Nat) :
    (addTour vertices : Call M α Bool).run m = if m.phase = .active then
      match m.expansion.trace vertices with
      | .ok r => (addRoute r : Call M α Bool).run m
      | .error reason => (.error (.untraceable reason), m)
      else (.error (.invalidState m.phase), m) := by
  rw [addTour, run_ensureActive_bind, run_bind, run_trace]
  congr 1
  cases m.expansion.trace vertices <;> rfl

def addFound (found : PricingResult α) : Call M α Unit := do
  found.legs.forM fun leg => discard (materialize leg)
  found.routes.forM fun r => discard (addRoute r)

/-- The part of `price` that comes after the pricer. -/
def takeUp (before : Nat) (answer : Except (Contradiction α) (PricingResult α) × Pricer α) :
    Call M α (PricingOutcome α) := do
  modify ({ · with pricer := answer.2 })
  match answer.1 with
  | .error c => throw (.inconsistentBound c.bound c.incumbent)
  | .ok found =>
    addFound found
    pure ⟨(← get).variableCount - before, found.lowerBound, !found.isEmpty⟩

omit hR in
theorem price_eq (kind : CostKind) : (price kind : Call M α (PricingOutcome α)) = (do
    let before ← get
    let round ← ask (Round.ofMaster kind before.incumbent before.bestBound)
    takeUp before.variableCount (before.pricer.price before.expansion round)) := by
  rw [price]
  congr 1
  funext before
  congr 1
  funext round
  generalize before.pricer.price before.expansion round = answer
  obtain ⟨c | found, pricer⟩ := answer
  · rfl
  · simp only [takeUp, addFound, bind_assoc]

omit hR in
theorem run_price (m : Manager M α) (kind : CostKind) :
    (price kind : Call M α (PricingOutcome α)).run m =
      match (ask (Round.ofMaster kind m.incumbent m.bestBound) : Call M α (Round α)).run m with
      | (.error e, t) => (.error e, t)
      | (.ok round, t) =>
        (takeUp m.variableCount (m.pricer.price m.expansion round) : Call M α _).run t := by
  rw [price_eq]
  change (ask (Round.ofMaster kind m.incumbent m.bestBound) >>= fun round =>
    takeUp m.variableCount (m.pricer.price m.expansion round) : Call M α _).run m = _
  rw [run_bind]
  rcases (ask (Round.ofMaster kind m.incumbent m.bestBound) : Call M α (Round α)).run m
    with ⟨_ | _, _⟩ <;> rfl

theorem preserves_addFound {found : PricingResult α} (hfound : found.Uses permitted) :
    Preserves (Edits R permitted) (addFound found : Call M α Unit) := by
  apply preserves_bind
  · apply preserves_forM
    intro leg hl
    exact preserves_discard (preserves_materialize (hfound.legs leg hl))
  · intro _
    apply preserves_forM
    intro r hr
    exact preserves_discard (preserves_addRoute (hfound.routes r hr))

/-- Whatever a pricer finds for a manager is permitted. -/
def FindsPermitted (m : Manager M α) (permitted : Leg → Prop) : Prop :=
  ∀ round found, (m.pricer.price m.expansion round).1 = .ok found → found.Uses permitted

omit [Master M α] hR in
theorem findsPermitted_of_forall (hall : ∀ leg, permitted leg) (m : Manager M α) :
    m.FindsPermitted permitted :=
  fun _ _ _ => ⟨fun leg _ => hall leg, fun _ _ leg _ => hall leg⟩

theorem edits_price (kind : CostKind) (hfinds : m.FindsPermitted permitted) :
    Edits R permitted m ((price kind : Call M α (PricingOutcome α)).run m).2 := by
  have hround : Edits R permitted m
      ((ask (Round.ofMaster kind m.incumbent m.bestBound) : Call M α (Round α)).run m).2 :=
    preserves_ask (preserves_ofMaster kind _ _) m
  rw [run_price]
  split <;> rename_i hrun <;> rw [hrun] at hround
  · exact hround
  · rename_i round t
    have htake : Preserves (Edits R permitted)
        (takeUp m.variableCount (m.pricer.price m.expansion round) : Call M α _) := by
      refine preserves_bind (preserves_modify fun m => .single (.pricer _)) fun _ => ?_
      split
      · exact preserves_throw _
      · rename_i found hfound
        apply preserves_bind (preserves_addFound (hfinds round found hfound))
        intro _
        exact preserves_bind preserves_get fun _ => preserves_pure _
    exact hround.trans (htake t)

theorem edits_addTour {vertices : List Nat} (htrace : ∀ r, m.expansion.trace vertices = .ok r →
    ∀ leg ∈ r.legs, permitted leg) :
    Edits R permitted m ((addTour vertices : Call M α Bool).run m).2 := by
  rw [run_addTour]
  split
  · cases hr : m.expansion.trace vertices with
    | error reason => exact .refl
    | ok r => exact preserves_addRoute (htrace r hr) m
  · exact .refl

end

theorem newVariables_of_price {kind : CostKind} {outcome : PricingOutcome α}
    (h : (price kind : Call M α (PricingOutcome α)).run m = (.ok outcome, m')) :
    outcome.newVariables = m'.variableCount - m.variableCount := by
  rw [run_price] at h
  split at h
  · cases h
  · obtain ⟨_, t, _, h⟩ := exists_of_run_bind_ok h
    split at h
    · cases h
    · obtain ⟨_, u, _, h⟩ := exists_of_run_bind_ok h
      cases h
      rfl

/-- The first call that succeeds seeds the master, later ones ask the pricer. -/
theorem run_farkasPricing (m : Manager M α) :
    (farkasPricing : Call M α (PricingOutcome α)).run m = if m.phase = .active then
      if m.seeded = true then (price .farkas : Call M α (PricingOutcome α)).run m
      else match (addTour m.initialTour : Call M α Bool).run m with
        | (.ok _, t) =>
          (.ok ⟨t.variableCount - m.variableCount, none, true⟩, { t with seeded := true })
        | (.error e, t) => (.error e, t)
      else (.error (.invalidState m.phase), m) := by
  rw [farkasPricing, run_ensureActive_bind]
  congr 1
  change (if m.seeded = true then price .farkas else _ : Call M α (PricingOutcome α)).run m = _
  split
  · rfl
  · have hdiscard : discard (addTour m.initialTour : Call M α Bool) =
        addTour m.initialTour >>= fun _ => pure () := rfl
    rw [hdiscard, bind_assoc, run_bind]
    rcases (addTour m.initialTour : Call M α Bool).run m with ⟨_ | _, _⟩ <;> rfl

theorem edits_farkasPricing [Respected R]
    (htour : Edits R permitted m ((addTour m.initialTour : Call M α Bool).run m).2)
    (hfinds : m.FindsPermitted permitted) :
    ∃ u seeded, Edits R permitted m u ∧ (m.seeded = true → seeded = u.seeded) ∧
      ((farkasPricing : Call M α (PricingOutcome α)).run m).2 = { u with seeded } := by
  rw [run_farkasPricing]
  split
  · split
    · exact ⟨_, _, edits_price .farkas hfinds, fun _ => rfl, rfl⟩
    · rename_i hseeded
      rcases hrun : (addTour m.initialTour : Call M α Bool).run m with ⟨_ | _, t⟩ <;>
        rw [hrun] at htour <;> exact ⟨t, _, htour, fun h => absurd h hseeded, rfl⟩
  · exact ⟨m, _, .refl, fun _ => rfl, rfl⟩

theorem newVariables_of_farkasPricing {outcome : PricingOutcome α}
    (h : (farkasPricing : Call M α (PricingOutcome α)).run m = (.ok outcome, m')) :
    outcome.newVariables = m'.variableCount - m.variableCount := by
  rw [run_farkasPricing] at h
  split at h
  · split at h
    · exact newVariables_of_price h
    · split at h
      · cases h
        rfl
      · cases h
  · cases h

end

end Manager

end TourPricing
