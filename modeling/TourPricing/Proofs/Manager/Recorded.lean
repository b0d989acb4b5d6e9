import TourPricing.Proofs.Manager.Run
import TourPricing.Proofs.Master.Recorder

namespace TourPricing.Manager

variable {M α β : Type}

@[simps]
def erase (m : Manager (Recorder M α) α) : Manager M α :=
  { m with master := m.master.master }

theorem erases_ask {request : Ask (Recorder M α) β} {request' : Ask M β}
    (h : Erases Recorder.master request request') :
    Erases erase (ask request : Call (Recorder M α) α β) (ask request') := by
  intro m
  have hrun : (ask request' : Call M α β).run m.erase =
      ((request'.run m.master.master).1.mapError .master,
        { m.erase with master := (request'.run m.master.master).2 }) := rfl
  rw [hrun, h m.master]
  rfl

theorem erases_ensureActive :
    Erases erase (ensureActive : Call (Recorder M α) α Unit) ensureActive :=
  erases_get_bind fun _ => erases_ite (fun _ => erases_throw _) fun _ => erases_pure _

variable [HasLedger M α] [Master M α]

theorem erases_init : Erases erase (init : Call (Recorder M α) α Unit) init := by
  refine erases_get_bind fun m => erases_ite (fun _ => erases_throw_bind _) fun _ => ?_
  refine erases_bind (erases_mapM _ fun _ => erases_ask (Recorder.erases_pass _ _)) fun _ => ?_
  exact erases_modify fun _ => rfl

theorem erases_exit : Erases erase (exit : Call (Recorder M α) α Unit) exit := by
  refine erases_bind erases_ensureActive fun _ => erases_get_bind fun m => ?_
  refine erases_bind (erases_modify fun _ => rfl) fun _ => ?_
  refine erases_bind (erases_forM _ fun _ => erases_ask (Recorder.erases_pass _ _)) fun _ => ?_
  refine erases_get_bind fun m => erases_bind (erases_modify fun _ => rfl) fun _ => ?_
  refine erases_bind (erases_forM _ fun _ => erases_ask (Recorder.erases_pass _ _)) fun _ => ?_
  exact erases_modify fun _ => rfl

variable [Scalar α]

theorem erases_flowRow (s : Stop) :
    Erases erase (flowRow s : Call (Recorder M α) α RowId) (flowRow s) := by
  refine erases_get_bind fun m => ?_
  rw [erase_flow]
  split
  · exact erases_pure _
  · refine erases_bind (erases_ask (Recorder.erases_pass _ _)) fun r => ?_
    exact erases_bind (erases_modify fun _ => rfl) fun _ => erases_pure _

theorem erases_flowRow? (s : Stop) :
    Erases erase (flowRow? s : Call (Recorder M α) α (Option RowId)) (flowRow? s) :=
  erases_get_bind fun _ => erases_ite (fun _ => erases_pure _)
    fun _ => erases_map some (erases_flowRow s)

theorem erases_enterColumn (v : VariableId) (tail head : Option RowId) (link : RowId) :
    Erases Recorder.master (enterColumn v tail head link : Ask (Recorder M α) Unit)
      (enterColumn v tail head link) := by
  rw [enterColumn_eq, enterColumn_eq]
  exact erases_forM _ fun _ => Recorder.erases_pass _ _

theorem erases_materialize (leg : Leg) :
    Erases erase (materialize leg : Call (Recorder M α) α VariableId) (materialize leg) := by
  refine erases_bind erases_ensureActive fun _ => erases_get_bind fun m => ?_
  rw [variableOf?, variableOf?, erase_columns]
  split
  · exact erases_pure _
  · refine erases_bind (erases_flowRow? _) fun tail => ?_
    refine erases_bind (erases_flowRow? _) fun head => erases_get_bind fun m => ?_
    rw [erase_linking]
    split
    · refine erases_get_bind fun m => ?_
      cases leg.travelTime? with
      | none => exact erases_throw _
      | some time =>
        refine erases_bind (erases_ask (Recorder.erases_pass _ _)) fun v => ?_
        refine erases_bind (erases_tryCatch (erases_ask (erases_enterColumn _ _ _ _)) fun e => ?_)
          fun _ => ?_
        · exact erases_bind (erases_ask (Recorder.erases_pass _ _)) fun _ => erases_throw e
        · exact erases_bind (erases_modify fun _ => rfl) fun _ => erases_pure v
    · exact erases_throw _

theorem erases_addRoute (r : Route) :
    Erases erase (addRoute r : Call (Recorder M α) α Bool) (addRoute r) := by
  refine erases_bind erases_ensureActive fun _ => ?_
  refine erases_bind (erases_mapM _ erases_materialize) fun used => erases_get_bind fun m => ?_
  rw [erase_expansion]
  split
  · exact erases_throw _
  · exact erases_pure _
  · refine erases_bind (erases_ask (Recorder.erases_pass _ _)) fun accepted => ?_
    refine erases_ite (fun _ => ?_) fun _ => erases_pure _
    cases r.travelTime? with
    | none => exact erases_throw_bind _
    | some time =>
      refine erases_bind (erases_modify fun m => ?_) fun _ => erases_pure _
      rw [erase_incumbent]
      split <;> rfl

omit [Scalar α] [HasLedger M α] [Master M α] in
theorem erases_trace (vertices : List Nat) :
    Erases erase (trace vertices : Call (Recorder M α) α Route) (trace vertices) := by
  refine erases_get_bind fun m => ?_
  rw [erase_expansion]
  split
  · exact erases_pure _
  · exact erases_throw _

theorem erases_addTour (vertices : List Nat) :
    Erases erase (addTour vertices : Call (Recorder M α) α Bool) (addTour vertices) :=
  erases_bind erases_ensureActive fun _ =>
    erases_bind (erases_trace vertices) fun r => erases_addRoute r

theorem erases_ofMaster (kind : CostKind) (incumbent bestBound : Option α) :
    Erases Recorder.master (Round.ofMaster kind incumbent bestBound : Ask (Recorder M α) (Round α))
      (Round.ofMaster kind incumbent bestBound) := by
  refine erases_bind (Recorder.erases_pass _ _) fun duals => ?_
  cases kind with
  | reduced =>
    exact erases_bind (Recorder.erases_pass _ _) fun _ => erases_get_bind fun _ => erases_pure _
  | farkas => exact erases_bind (erases_pure _) fun _ => erases_get_bind fun _ => erases_pure _

theorem erases_price (kind : CostKind) :
    Erases erase (price kind : Call (Recorder M α) α (PricingOutcome α)) (price kind) := by
  refine erases_get_bind fun m => ?_
  refine erases_bind (erases_ask (erases_ofMaster _ _ _)) fun round => ?_
  rw [erase_pricer, erase_expansion]
  rcases m.pricer.price m.expansion round with ⟨c | found, pricer⟩
  · exact erases_bind (erases_modify fun _ => rfl) fun _ => erases_throw _
  · refine erases_bind (erases_modify fun _ => rfl) fun _ => ?_
    refine erases_bind (erases_forM _ fun _ => erases_discard (erases_materialize _)) fun _ => ?_
    refine erases_bind (erases_forM _ fun _ => erases_discard (erases_addRoute _)) fun _ => ?_
    exact erases_get_bind fun _ => erases_pure _

theorem erases_farkasPricing :
    Erases erase (farkasPricing : Call (Recorder M α) α (PricingOutcome α)) farkasPricing := by
  refine erases_bind erases_ensureActive fun _ => erases_get_bind fun m => ?_
  refine erases_ite (fun _ => erases_price _) fun _ => ?_
  refine erases_bind (erases_discard (erases_addTour _)) fun _ => ?_
  refine erases_bind (erases_modify fun _ => rfl) fun _ => erases_get_bind fun _ => erases_pure _

theorem erases_reducedCostPricing :
    Erases erase (reducedCostPricing : Call (Recorder M α) α (PricingOutcome α))
      reducedCostPricing := by
  refine erases_bind erases_ensureActive fun _ => erases_bind (erases_price _) fun outcome => ?_
  dsimp only
  split
  · refine erases_bind (erases_modify fun m => ?_) fun _ => erases_pure _
    rw [erase_bestBound]
    split <;> rfl
  · exact erases_pure _

theorem erases_perform (op : Operation) :
    Erases erase (op.perform : Call (Recorder M α) α Unit) op.perform := by
  cases op with
  | init => exact erases_init
  | exit => exact erases_exit
  | materialize leg => exact erases_discard (erases_materialize leg)
  | addRoute r => exact erases_discard (erases_addRoute r)
  | addTour vertices => exact erases_discard (erases_addTour vertices)
  | farkasPricing => exact erases_discard erases_farkasPricing
  | reducedCostPricing => exact erases_discard erases_reducedCostPricing
  | reoptimize => exact erases_discard (erases_ask (Recorder.erases_pass _ _))

def recorded (m : Manager M α) : Manager (Recorder M α) α :=
  { m with master := ⟨m.master, []⟩ }

theorem erase_after (m : Manager (Recorder M α) α) (op : Operation) :
    (m.after op).erase = m.erase.after op :=
  (congrArg Prod.snd (erases_perform op m)).symm

theorem Run.erase {permitted : Leg → Prop} {m m' : Manager (Recorder M α) α}
    (h : Run permitted m m') : Run permitted m.erase m'.erase := by
  induction h with
  | refl => exact .refl
  | tail _ hmove ih =>
    cases hmove with
    | call op hop =>
      rw [erase_after]
      exact ih.call op hop
    | reorder hflow hcolumns => exact ih.tail (.reorder hflow hcolumns)

/-- Every run may be recorded. -/
theorem Run.exists_recorded {permitted : Leg → Prop} {m m' : Manager M α}
    (h : Run permitted m m') :
    ∃ r : Manager (Recorder M α) α, Run permitted m.recorded r ∧ r.erase = m' := by
  induction h with
  | refl => exact ⟨m.recorded, .refl, rfl⟩
  | tail _ hmove ih =>
    obtain ⟨r, hrun, rfl⟩ := ih
    cases hmove with
    | call op hop => exact ⟨r.after op, hrun.call op hop, erase_after r op⟩
    | @reorder flow columns hflow hcolumns =>
      exact ⟨{ r with flow, columns }, hrun.tail (.reorder hflow hcolumns), rfl⟩

end TourPricing.Manager
