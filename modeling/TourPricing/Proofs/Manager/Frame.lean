import TourPricing.Proofs.Manager.Edits

namespace TourPricing

variable {M α β : Type}

namespace Manager

/-- A part of a call that has no say in the best bound, and adds variables for permitted legs
only. -/
structure Frame (R : M → M → Prop) (permitted : Leg → Prop) (m m' : Manager M α) : Prop where
  expansion : m'.expansion = m.expansion
  bestBound : m'.bestBound = m.bestBound
  master : R m.master m'.master
  columns : ∀ p ∈ m'.columns, p ∈ m.columns ∨ permitted p.1

variable {R : M → M → Prop} {permitted : Leg → Prop}

instance [IsPreorder M R] : IsPreorder (Manager M α) (Frame R permitted) where
  refl m := ⟨rfl, rfl, refl_of R m.master, fun _ hp => .inl hp⟩
  trans m m' m'' h h' := by
    constructor
    case expansion => exact h'.expansion.trans h.expansion
    case bestBound => exact h'.bestBound.trans h.bestBound
    case master => exact trans_of R h.master h'.master
    case columns =>
      intro p hp
      rcases h'.columns p hp with hp | hp
      · exact h.columns p hp
      · exact .inr hp

def raise [Scalar α] (m : Manager M α) (bound : Option α) : Manager M α :=
  { m with bestBound := bound.elim m.bestBound fun b =>
      if m.bestBound.all (· < b) then some b else m.bestBound }

section

variable [IsPreorder M R]

theorem Frame.of_eq {m m' : Manager M α} (hexpansion : m'.expansion = m.expansion)
    (hbound : m'.bestBound = m.bestBound) (hmaster : m'.master = m.master)
    (hcolumns : m'.columns = m.columns) : Frame R permitted m m' :=
  ⟨hexpansion, hbound, hmaster ▸ refl_of R m.master, fun _ hp => .inl (hcolumns ▸ hp)⟩

theorem Frame.of_edits {m m' : Manager M α} (h : Edits R permitted m m') :
    Frame R permitted m m' := by
  obtain ⟨added, hcolumns, hadded⟩ := h.exists_columns
  refine ⟨h.keeps.expansion, h.keeps.bestBound, h.master, fun p hp => ?_⟩
  rw [hcolumns] at hp
  rcases List.mem_append.1 hp with hp | hp
  · exact .inl hp
  · exact .inr (hadded p hp)

end

theorem frames_ask [IsPreorder M R] {request : Ask M β} (h : Preserves R request) :
    Preserves (Frame R permitted) (ask request : Call M α β) :=
  (preserves_ask h).mono fun _ _ => .of_edits

section

variable [Master M α] {ρ : Manager M α → Manager M α → Prop} [IsPreorder (Manager M α) ρ]

theorem preserves_init_of
    (hrow : ∀ e, Preserves ρ (ask (Master.linkingRow e) : Call M α RowId))
    (hactive : ∀ (m : Manager M α) rows, ρ m { m with linking := rows, phase := .active }) :
    Preserves ρ (init : Call M α Unit) := by
  refine preserves_bind preserves_get fun m => ?_
  split
  · exact preserves_throw_bind _
  · apply preserves_bind (preserves_mapM fun e _ => hrow e)
    intro rows
    exact preserves_modify fun m => hactive m rows

theorem preserves_exit_of
    (hvariable : ∀ v, Preserves ρ (ask (Master.releaseVariable v) : Call M α Unit))
    (hrow : ∀ r, Preserves ρ (ask (Master.releaseRow r) : Call M α Unit))
    (hcolumns : ∀ m : Manager M α, ρ m { m with columns := [] })
    (hflow : ∀ m : Manager M α, ρ m { m with flow := [] })
    (htornDown : ∀ m : Manager M α, ρ m { m with linking := [], phase := .tornDown }) :
    Preserves ρ (exit : Call M α Unit) := by
  refine preserves_bind preserves_ensureActive fun _ => ?_
  refine preserves_bind preserves_get fun m => ?_
  refine preserves_bind (preserves_modify hcolumns) fun _ => ?_
  refine preserves_bind (preserves_forM fun p _ => hvariable p.2) fun _ => ?_
  refine preserves_bind preserves_get fun m => ?_
  refine preserves_bind (preserves_modify hflow) fun _ => ?_
  refine preserves_bind (preserves_forM fun p _ => hrow p.2) fun _ => ?_
  exact preserves_modify htornDown

end

variable [Master M α] [hR : Respected R]

theorem preserves_init : Preserves (Frame R permitted) (init : Call M α Unit) := by
  apply preserves_init_of
  · exact fun e => frames_ask (hR.linkingRow e)
  · exact fun m rows => .of_eq rfl rfl rfl rfl

theorem preserves_exit : Preserves (Frame R permitted) (exit : Call M α Unit) := by
  apply preserves_exit_of
  · exact fun v => frames_ask (hR.releaseVariable v)
  · exact fun r => frames_ask (hR.releaseRow r)
  · exact fun m => ⟨rfl, rfl, refl_of R m.master, nofun⟩
  · exact fun m => .of_eq rfl rfl rfl rfl
  · exact fun m => .of_eq rfl rfl rfl rfl

variable [Scalar α]

/-- The lower bound that a call reports. Only a call that prices reduced costs does so, if it
succeeds. -/
def reported (m : Manager M α) : Operation → Option α
  | .reducedCostPricing =>
    match ((reducedCostPricing : Call M α (PricingOutcome α)).run m).1 with
    | .ok outcome => outcome.lowerBound
    | .error _ => none
  | _ => none

theorem reported_eq_none {m : Manager M α} {op : Operation}
    (hop : ∀ outcome m', op = .reducedCostPricing →
      (reducedCostPricing : Call M α (PricingOutcome α)).run m ≠ (.ok outcome, m')) :
    m.reported op = none := by
  cases op with
  | reducedCostPricing =>
    rw [reported]
    rcases hrun : (reducedCostPricing : Call M α (PricingOutcome α)).run m with ⟨e | outcome, m'⟩
    · rfl
    · exact absurd hrun (hop outcome m' rfl)
  | _ => rfl

theorem run_reducedCostPricing (m : Manager M α) :
    (reducedCostPricing : Call M α (PricingOutcome α)).run m = if m.phase = .active then
      match (price .reduced : Call M α (PricingOutcome α)).run m with
      | (.ok outcome, u) => (.ok outcome, u.raise outcome.lowerBound)
      | (.error e, u) => (.error e, u)
      else (.error (.invalidState m.phase), m) := by
  rw [reducedCostPricing, run_ensureActive_bind, run_bind]
  congr 1
  rcases (price .reduced : Call M α (PricingOutcome α)).run m with ⟨e | outcome, u⟩
  · rfl
  · obtain ⟨_, _ | bound, _⟩ := outcome
    · rfl
    · change (_, if u.bestBound.all (· < bound) then _ else u) = (_, u.raise (some bound))
      rw [raise, Option.elim_some]
      split <;> rfl

theorem edits_reducedCostPricing {m : Manager M α} (hfinds : m.FindsPermitted permitted) :
    ∃ u bestBound, Edits R permitted m u ∧
      ((reducedCostPricing : Call M α (PricingOutcome α)).run m).2 = { u with bestBound } := by
  have hedits := edits_price (R := R) .reduced hfinds
  rw [run_reducedCostPricing]
  split
  · rcases hrun : (price .reduced : Call M α (PricingOutcome α)).run m with ⟨e | outcome, u⟩ <;>
      rw [hrun] at hedits <;> exact ⟨u, _, hedits, rfl⟩
  · exact ⟨m, _, .refl, rfl⟩

omit hR in
theorem newVariables_of_reducedCostPricing {m m' : Manager M α} {outcome : PricingOutcome α}
    (h : (reducedCostPricing : Call M α (PricingOutcome α)).run m = (.ok outcome, m')) :
    outcome.newVariables = m'.variableCount - m.variableCount := by
  rw [run_reducedCostPricing] at h
  split at h
  · split at h
    · rename_i hprice
      have hnew := newVariables_of_price hprice
      cases h
      exact hnew
    · cases h
  · cases h

/-- Between taking up the master and giving it up again, a call only adds. Only a call that prices
an infeasible master for an unseeded manager has a say in the flag. -/
theorem edits_after (hall : ∀ leg, permitted leg) (m : Manager M α) {op : Operation}
    (hinit : op ≠ .init) (hexit : op ≠ .exit) :
    ∃ u seeded, Edits R permitted m u ∧
      ((op = .farkasPricing → m.seeded = true) → seeded = u.seeded) ∧
      m.after op = { u with seeded }.raise (m.reported op) := by
  have hfinds := findsPermitted_of_forall hall m
  have htour (vertices : List Nat) :
      Edits R permitted m ((addTour vertices : Call M α Bool).run m).2 :=
    edits_addTour fun _ _ leg _ => hall leg
  cases op with
  | init => exact absurd rfl hinit
  | exit => exact absurd rfl hexit
  | materialize leg =>
    exact ⟨_, _, preserves_discard (preserves_materialize (hall leg)) m, fun _ => rfl, rfl⟩
  | addRoute r =>
    exact ⟨_, _, preserves_discard (preserves_addRoute fun leg _ => hall leg) m, fun _ => rfl, rfl⟩
  | addTour vertices =>
    refine ⟨_, _, htour vertices, fun _ => rfl, ?_⟩
    rw [after, Operation.perform, snd_run_discard]
    rfl
  | farkasPricing =>
    obtain ⟨u, seeded, hedits, hseeded, hrun⟩ := edits_farkasPricing (htour m.initialTour) hfinds
    refine ⟨u, seeded, hedits, fun h => hseeded (h rfl), ?_⟩
    rw [after, Operation.perform, snd_run_discard, hrun]
    rfl
  | reoptimize => exact ⟨_, _, preserves_discard preserves_reoptimize m, fun _ => rfl, rfl⟩
  | reducedCostPricing =>
    have hedits := edits_price (R := R) .reduced hfinds
    rw [after, Operation.perform, snd_run_discard, reported, run_reducedCostPricing]
    split
    · rcases hrun : (price .reduced : Call M α (PricingOutcome α)).run m with ⟨e | outcome, u⟩ <;>
        rw [hrun] at hedits <;> exact ⟨u, _, hedits, fun _ => rfl, rfl⟩
    · exact ⟨m, _, .refl, fun _ => rfl, rfl⟩

theorem frame_after (hall : ∀ leg, permitted leg) (m : Manager M α) (op : Operation) :
    ∃ u, Frame R permitted m u ∧ m.after op = u.raise (m.reported op) := by
  by_cases hinit : op = .init
  · subst hinit
    exact ⟨_, preserves_init m, rfl⟩
  · by_cases hexit : op = .exit
    · subst hexit
      exact ⟨_, preserves_exit m, rfl⟩
    · obtain ⟨u, seeded, hedits, hop⟩ := edits_after (R := R) hall m hinit hexit
      have hframe : Frame R permitted u { u with seeded } := .of_eq rfl rfl rfl rfl
      exact ⟨_, trans_of _ (.of_edits hedits) hframe, hop.2⟩

theorem expansion_after (m : Manager M α) (op : Operation) :
    (m.after op).expansion = m.expansion := by
  obtain ⟨u, hu, hop⟩ :=
    frame_after (R := fun _ _ : M => True) (fun _ : Leg => trivial) m op
  rw [hop]
  exact hu.expansion

theorem bestBound_after (m : Manager M α) (op : Operation) :
    (m.after op).bestBound = (m.reported op).elim m.bestBound fun b =>
      if m.bestBound.all (· < b) then some b else m.bestBound := by
  obtain ⟨u, hu, hop⟩ :=
    frame_after (R := fun _ _ : M => True) (fun _ : Leg => trivial) m op
  rw [hop, raise, hu.bestBound]

end Manager

end TourPricing
