import TourPricing.Proofs.Manager.Calls
import TourPricing.Proofs.Manager.Invariants

namespace TourPricing

open Std.Do

set_option mvcgen.warning false

variable {M α : Type} [Scalar α]

namespace Manager

/-- The calls that may be made to a manager. -/
inductive Operation where
  | init
  | exit
  | materialize (leg : Leg)
  | addRoute (r : Route)
  | addTour (vertices : List Nat)
  | farkasPricing
  | reducedCostPricing
  | reoptimize

namespace Operation

def perform [Master M α] : Operation → Call M α Unit
  | .init => Manager.init
  | .exit => Manager.exit
  | .materialize leg => discard (Manager.materialize leg)
  | .addRoute r => discard (Manager.addRoute r)
  | .addTour vertices => discard (Manager.addTour vertices)
  | .farkasPricing => discard Manager.farkasPricing
  | .reducedCostPricing => discard Manager.reducedCostPricing
  | .reoptimize => discard Manager.reoptimize

def legs : Operation → List Leg
  | .materialize leg => [leg]
  | .addRoute r => r.legs
  | _ => []

end Operation

section

variable [HasLedger M α] [Master M α] [LawfulMaster M] {permitted : Leg → Prop}

theorem linkingRows_spec (n : Nat) (m : Manager M α) :
    ⦃fun t => ⌜t = m⌝⦄ ((List.range n).mapM fun e => ask (Master.linkingRow e) : Call M α _)
    ⦃post⟨fun rows t => ⌜(∃ s, t = { m with master := s } ∧ Idles m.master s) ∧
        rows = (List.range n).map .mk ∧ n ≤ (HasLedger.ledger m.master).linkingCount⌝,
      fun _ t => ⌜∃ s, t = { m with master := s } ∧ Idles m.master s⌝⟩⦄ := by
  have hrows := mapM_spec (ε := PricingError α)
    (G := fun m t : Manager M α => ∃ s, t = { m with master := s } ∧ Idles m.master s)
    (T := fun e r t => e < (HasLedger.ledger t.master).linkingCount ∧ RowId.mk e = r)
    (f := fun e => ask (Master.linkingRow e)) (l := List.range n) (fun m => ?_) ?_ ?_ ?_ m
  · refine triple_mono hrows (fun rows t h => ⟨h.1, ?_⟩) fun _ _ => id
    obtain ⟨⟨s, rfl, hc⟩, hall⟩ := h
    obtain ⟨hlt, hrow⟩ := (List.forall₂_and_left _ _).1 hall
    have hrows : (List.range n).map .mk = rows :=
      List.forall₂_eq_eq_eq.symm ▸ List.forall₂_map_left_iff.2 hrow
    refine ⟨hrows.symm, ?_⟩
    cases n with
    | zero => exact Nat.zero_le _
    | succ k => exact hc.ledger ▸ hlt k List.self_mem_range_succ
  · exact ⟨m.master, rfl, .refl _⟩
  · rintro m _ _ ⟨s, rfl, hc⟩ ⟨s', rfl, hc'⟩
    exact ⟨s', rfl, hc.idle hc'⟩
  · rintro e r m _ ⟨hlt, rfl⟩ ⟨s, rfl, hc⟩
    exact ⟨hc.ledger ▸ hlt, rfl⟩
  · intro e _ m
    refine triple_mono (ask_spec (LawfulMaster.linkingRow e) m) (fun r t h => ?_) fun _ _ => id
    obtain ⟨s, rfl, hc, rfl, hlt⟩ := h
    exact ⟨⟨s, rfl, hc⟩, hc.ledger ▸ hlt, rfl⟩

theorem init_spec (permitted : Leg → Prop) (m : Manager M α) :
    ⦃fun t => ⌜t = m⌝⦄ (init : Call M α Unit)
    ⦃post⟨fun _ t => ⌜Follows permitted m t⌝, fun _ t => ⌜Follows permitted m t⌝⟩⦄ := by
  have hrows := linkingRows_spec (M := M) (α := α)
  mvcgen [init, hrows]
  case vc1 t ht _ _ =>
    subst ht
    exact .refl _
  case vc2 t ht _ hphase rows u hu _ =>
    subst ht
    obtain ⟨⟨s, rfl, hc⟩, rfl, hle⟩ := hu
    exact .of_step rfl hc (.init (not_not.1 hphase) hle)
  case vc3 t ht _ _ e u =>
    subst ht
    rintro ⟨s, rfl, hc⟩
    exact (Grows.of_idles hc).toFollows

omit [Master M α] [LawfulMaster M] in
/-- A table is given up entry by entry while it is empty already: what is pending is `put` back only
to say what was done. -/
theorem releaseAll_spec {κ ι : Type} {P : Manager M α → Prop} {release : ι → Ask M Unit}
    (put : List (κ × ι) → Manager M α → Manager M α) (hput : ∀ t, P t → put [] t = t)
    (step : ∀ k i rest t, P t → ⦃fun u => ⌜u = t⌝⦄ (ask (release i) : Call M α Unit)
      ⦃post⟨fun _ u => ⌜P u ∧ Follows permitted (put ((k, i) :: rest) t) (put rest u)⌝,
        fun _ u => ⌜Follows permitted (put ((k, i) :: rest) t) u⌝⟩⦄)
    (l : List (κ × ι)) (m : Manager M α) :
    ⦃fun t => ⌜P t ∧ Follows permitted m (put l t)⌝⦄
    (l.forM fun (_, i) => ask (release i) : Call M α Unit)
    ⦃post⟨fun _ t => ⌜P t ∧ Follows permitted m t⌝, fun _ t => ⌜Follows permitted m t⌝⟩⦄ := by
  have hloop := forM_spec (ε := PricingError α)
    (I := fun rest t => P t ∧ Follows permitted m (put rest t))
    (R := fun _ t => Follows permitted m t) (f := fun (_, i) => ask (release i))
    (fun p rest => ?_) l
  · refine triple_mono hloop (fun _ t h => ?_) fun _ _ => id
    obtain ⟨hP, hfollows⟩ := h
    rw [hput t hP] at hfollows
    exact ⟨hP, hfollows⟩
  · obtain ⟨k, i⟩ := p
    apply triple_of_state
    rintro t ⟨hP, hfollows⟩
    refine triple_mono (step k i rest t hP) (fun _ u h => ?_) fun _ u h => ?_
    · exact ⟨h.1, hfollows.trans h.2⟩
    · exact hfollows.trans h

theorem releaseVariables_spec (permitted : Leg → Prop) (l : List (Leg × VariableId))
    (m : Manager M α) :
    ⦃fun t => ⌜(t.columns = [] ∧ t.phase = .active) ∧
        Follows permitted m { t with columns := l }⌝⦄
    (l.forM fun (_, v) => ask (Master.releaseVariable v) : Call M α Unit)
    ⦃post⟨fun _ t => ⌜(t.columns = [] ∧ t.phase = .active) ∧ Follows permitted m t⌝,
      fun _ t => ⌜Follows permitted m t⌝⟩⦄ := by
  refine releaseAll_spec (fun l t => { t with columns := l }) (fun t h => ?_)
    (fun leg v rest t h => ?_) l m
  · rw [← h.1]
  · obtain ⟨hcolumns, hactive⟩ := h
    refine triple_mono (ask_spec (LawfulMaster.releaseVariable v) t) (fun _ u h => ?_)
      fun _ u h => ?_
    · obtain ⟨s, rfl, l', hl, hc⟩ := h
      exact ⟨⟨hcolumns, hactive⟩, .of_step rfl hc (.releaseColumn hactive rfl hl)⟩
    · obtain ⟨s, rfl, hc, hor⟩ := h
      have hlose : Follows permitted { t with columns := (leg, v) :: rest }
          { t with master := s, columns := [] } :=
        .of_step rfl hc (.loseColumns hactive rfl hor)
      rw [← hcolumns] at hlose
      exact hlose

theorem releaseRows_spec (permitted : Leg → Prop) (l : List (Stop × RowId)) (m : Manager M α) :
    ⦃fun t => ⌜(t.flow = [] ∧ t.columns = [] ∧ t.phase = .active) ∧
        Follows permitted m { t with flow := l }⌝⦄
    (l.forM fun (_, r) => ask (Master.releaseRow r) : Call M α Unit)
    ⦃post⟨fun _ t => ⌜(t.flow = [] ∧ t.columns = [] ∧ t.phase = .active) ∧ Follows permitted m t⌝,
      fun _ t => ⌜Follows permitted m t⌝⟩⦄ := by
  refine releaseAll_spec (fun l t => { t with flow := l }) (fun t h => ?_)
    (fun stop r rest t h => ?_) l m
  · rw [← h.1]
  · obtain ⟨hflow, hcolumns, hactive⟩ := h
    refine triple_mono (ask_spec (LawfulMaster.releaseRow r) t) (fun _ u h => ?_) fun _ u h => ?_
    · obtain ⟨s, rfl, l', hl, hc⟩ := h
      exact ⟨⟨hflow, hcolumns, hactive⟩,
        .of_step rfl hc (.releaseRow hactive hcolumns rfl hl)⟩
    · obtain ⟨s, rfl, hc, hor⟩ := h
      have hlose : Follows permitted { t with flow := (stop, r) :: rest }
          { t with master := s, flow := [] } :=
        .of_step rfl hc (.loseRows hactive hcolumns rfl hor)
      rw [← hflow] at hlose
      exact hlose

theorem exit_spec (permitted : Leg → Prop) (m : Manager M α) :
    ⦃fun t => ⌜t = m⌝⦄ (exit : Call M α Unit)
    ⦃post⟨fun _ t => ⌜Follows permitted m t ∧ t.phase = .tornDown⌝,
      fun _ t => ⌜Follows permitted m t⌝⟩⦄ := by
  have hvariables (l : List (Leg × VariableId)) :=
    releaseVariables_spec (M := M) (α := α) permitted l m
  have hrows (l : List (Stop × RowId)) := releaseRows_spec (M := M) (α := α) permitted l m
  mvcgen [exit, ensureActive, hvariables, hrows]
  case vc1 t ht _ =>
    subst ht
    exact .refl _
  case vc2 t ht hactive _ _ =>
    subst ht
    exact ⟨⟨rfl, not_not.1 hactive⟩, .refl _⟩
  case vc3 t ht _ _ _ _ t₁ h₁ _ _ =>
    obtain ⟨⟨hcolumns, hactive⟩, hfollows⟩ := h₁
    exact ⟨⟨rfl, hcolumns, hactive⟩, hfollows⟩
  case vc4 t ht _ _ _ _ t₁ _ _ _ _ t₂ h₂ _ =>
    obtain ⟨⟨hflow, hcolumns, hactive⟩, hfollows⟩ := h₂
    exact ⟨hfollows.trans (.of_step rfl (.refl _) (.exit hactive hcolumns hflow)), rfl⟩

omit [Master M α] [LawfulMaster M] in
theorem follows_discard {β : Type} {c : Call M α β} {P : Prop} (hP : P) {m : Manager M α}
    (hc : ⦃fun t => ⌜t = m ∧ P⌝⦄ c
      ⦃post⟨fun _ t => ⌜Grows permitted m t⌝, fun _ t => ⌜Grows permitted m t⌝⟩⦄) :
    ⦃fun t => ⌜t = m⌝⦄ discard c
    ⦃post⟨fun _ t => ⌜Follows permitted m t⌝, fun _ t => ⌜Follows permitted m t⌝⟩⦄ := by
  have hfollows : ⦃fun t => ⌜t = m ∧ P⌝⦄ c
      ⦃post⟨fun _ t => ⌜Follows permitted m t⌝, fun _ t => ⌜Follows permitted m t⌝⟩⦄ :=
    triple_mono hc (fun _ _ h => h.toFollows) fun _ _ h => h.toFollows
  exact discard_spec (triple_pre (fun _ ht => ⟨ht, hP⟩) hfollows)

/-- Every call leads on in steps, if the legs that the caller chooses are permitted and the legs
that are found in the network are. -/
theorem perform_spec (op : Operation) (m : Manager M α) (hop : ∀ leg ∈ op.legs, permitted leg)
    (hfinds : m.expansion.Finds α permitted) :
    ⦃fun t => ⌜t = m⌝⦄ (op.perform : Call M α Unit)
    ⦃post⟨fun _ t => ⌜Follows permitted m t⌝, fun _ t => ⌜Follows permitted m t⌝⟩⦄ := by
  cases op with
  | init => exact init_spec permitted m
  | exit => exact triple_mono (exit_spec permitted m) (fun _ _ h => h.1) fun _ _ => id
  | materialize leg =>
    have hleg := hop leg List.mem_cons_self
    exact follows_discard hleg
      (triple_mono (materialize_spec permitted leg m) (fun _ _ h => h.1) fun _ _ => id)
  | addRoute r => exact follows_discard hop (addRoute_spec permitted r m)
  | addTour vertices => exact follows_discard hfinds (addTour_spec permitted vertices m)
  | farkasPricing => exact follows_discard hfinds (farkasPricing_spec permitted m)
  | reducedCostPricing => exact follows_discard hfinds (reducedCostPricing_spec permitted m)
  | reoptimize =>
    exact follows_discard trivial (triple_pre (fun _ ht => ht.1) (reoptimize_spec permitted m))

end

def after [Master M α] (m : Manager M α) (op : Operation) : Manager M α :=
  (op.perform.run m).2

/-- What may happen to a manager at a time. The order of its tables is not its choice. -/
inductive Move [Master M α] (permitted : Leg → Prop) : Manager M α → Manager M α → Prop
  | call {m : Manager M α} (op : Operation) : (∀ leg ∈ op.legs, permitted leg) →
    Move permitted m (m.after op)
  | reorder {m : Manager M α} {flow : List (Stop × RowId)} {columns : List (Leg × VariableId)} :
    flow.Perm m.flow → columns.Perm m.columns → Move permitted m { m with flow, columns }

abbrev Run [Master M α] (permitted : Leg → Prop) : Manager M α → Manager M α → Prop :=
  Relation.ReflTransGen (Move permitted)

theorem Run.call [Master M α] {permitted : Leg → Prop} {m m' : Manager M α}
    (h : Run permitted m m') (op : Operation) (hop : ∀ leg ∈ op.legs, permitted leg) :
    Run permitted m (m'.after op) :=
  h.tail (.call op hop)

theorem Run.of_operations [Master M α] {permitted : Leg → Prop} {operations : List Operation}
    (h : ∀ op ∈ operations, ∀ leg ∈ op.legs, permitted leg) (m : Manager M α) :
    Run permitted m (operations.foldl after m) := by
  induction operations generalizing m with
  | nil => exact .refl
  | cons op rest ih =>
    exact .head (.call op (h op List.mem_cons_self))
      (ih (fun o ho => h o (List.mem_cons_of_mem _ ho)) _)

section

variable [HasLedger M α] [Master M α] [LawfulMaster M] {permitted : Leg → Prop}
  {m m' : Manager M α}

theorem Move.follows (h : Move permitted m m') (hfinds : m.expansion.Finds α permitted) :
    Follows permitted m m' := by
  cases h with
  | call op hop =>
    have hrun := triple_iff.1 (perform_spec op m hop hfinds) m rfl
    rw [after]
    rcases hperform : op.perform.run m with ⟨_ | _, t⟩ <;> rw [hperform] at hrun <;> exact hrun
  | reorder hflow hcolumns => exact .of_step rfl (.refl _) (.reorder hflow hcolumns)

theorem Run.follows (h : Run permitted m m') (hfinds : m.expansion.Finds α permitted) :
    Follows permitted m m' := by
  induction h with
  | refl => exact .refl m
  | tail _ hmove ih =>
    exact ih.trans (hmove.follows (ih.expansion ▸ hfinds))

end

section

variable [HasLedger M α] {n : Nat} {master : M} (expansion : Expansion) (pricer : Pricer α)
  (initialTour : List Nat) (relaxed : Bool)

theorem sound_create (permitted : Leg → Prop)
    (hl : Ledger.SameModel (Ledger.withEdges n) (HasLedger.ledger master)) :
    (create master expansion pricer initialTour relaxed).books.Sound expansion.network
      permitted where
  linking := nofun
  edges := nofun
  linked r hr := by
    change ((HasLedger.ledger master).usedRow? r).isSome
    rw [hl.usedRow?, Ledger.isSome_usedRow?_withEdges]
    exact Nat.lt_of_lt_of_eq hr hl.linkingCount
  fresh r v _ := by
    change (HasLedger.ledger master).coefficientsAt r v = []
    rw [hl.coefficientsAt, Ledger.coefficientsAt_withEdges]
  idle _ := ⟨rfl, rfl⟩
  flow_table := .nil
  flow_row := nofun
  column_table := .nil
  permitted := nofun
  posted := nofun

theorem exact_create (hl : Ledger.SameModel (Ledger.withEdges n) (HasLedger.ledger master)) :
    (create master expansion pricer initialTour relaxed).books.Exact where
  columns v hv := by
    change ((HasLedger.ledger master).usedVariable? v).isSome at hv
    rw [hl.usedVariable?, Ledger.usedVariable?_withEdges] at hv
    exact nomatch hv
  rows r hr hused := by
    change ((HasLedger.ledger master).usedRow? r).isSome at hused
    rw [hl.usedRow?, Ledger.isSome_usedRow?_withEdges] at hused
    exact absurd hused (Nat.not_lt.2 (Nat.le_trans hl.linkingCount.ge hr))
  coefficients r v hv := by
    change (HasLedger.ledger master).coefficientsAt r v ≠ [] at hv
    rw [hl.coefficientsAt, Ledger.coefficientsAt_withEdges] at hv
    exact absurd rfl hv

end

def onScript (n : Nat) (settings : LedgerSettings α) (script : MasterScript α)
    (expansion : Expansion) (pricer : Pricer α) (initialTour : List Nat) (relaxed : Bool) :
    Manager (ScriptedMaster α) α :=
  create (.start ((Ledger.withEdges n).apply settings) script) expansion pricer initialTour relaxed

section

variable (n : Nat) (settings : LedgerSettings α) (script : MasterScript α) (expansion : Expansion)
  (pricer : Pricer α) (initialTour : List Nat) (relaxed : Bool)

theorem sound_onScript (permitted : Leg → Prop) :
    (onScript n settings script expansion pricer initialTour relaxed).books.Sound
      expansion.network permitted :=
  sound_create expansion pricer initialTour relaxed permitted
    (Ledger.sameModel_apply (Ledger.withEdges n) settings)

theorem exact_onScript :
    (onScript n settings script expansion pricer initialTour relaxed).books.Exact :=
  exact_create expansion pricer initialTour relaxed
    (Ledger.sameModel_apply (Ledger.withEdges n) settings)

end

theorem not_releaseRefused_of_run {n : Nat} {settings : LedgerSettings α} {script : MasterScript α}
    {expansion : Expansion} {pricer : Pricer α} {initialTour : List Nat} {relaxed : Bool}
    {permitted : Leg → Prop} {m : Manager (ScriptedMaster α) α}
    (hrun : Run permitted (onScript n settings script expansion pricer initialTour relaxed) m)
    (hdep : ∀ leg, expansion.network.IsDeparture leg → permitted leg)
    (hscript : ∀ k, script.refuses .releaseVariable k = false ∧
      script.refuses .releaseRow k = false) : ¬ m.master.ReleaseRefused :=
  LawfulMaster.not_releaseRefused _ ((hrun.follows (.of_departures hdep)).reliable hscript)

end Manager

end TourPricing
