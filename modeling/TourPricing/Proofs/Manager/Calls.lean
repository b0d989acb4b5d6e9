import TourPricing.Proofs.Departure
import TourPricing.Proofs.Manager.Books
import TourPricing.Proofs.Master.Lawful

namespace TourPricing

open Std.Do

set_option mvcgen.warning false

variable {M α : Type} [Scalar α]

structure Books.Makes (N : Network) (b : Books α) (o : Offer α) : Prop where
  ledger : o.ledger = b.ledger
  assignment : ∃ (r : Route) (used : List VariableId), r.isTour? N = some true ∧
    List.Forall₂ (fun leg v => (leg, v) ∈ b.columns) r.legs used ∧
    o.assignment = used.map fun v => (v, Scalar.ofNat 1)

namespace Manager

variable [HasLedger M α]

def books (m : Manager M α) : Books α :=
  ⟨HasLedger.ledger m.master, m.phase, m.linking, m.flow, m.columns, m.incumbent⟩

variable {permitted : Leg → Prop} {m m' m'' : Manager M α} {s : M}

structure Follows (permitted : Leg → Prop) (m m' : Manager M α) : Prop where
  expansion : m'.expansion = m.expansion
  releaseRefused : HasLedger.releaseRefused m.master → HasLedger.releaseRefused m'.master
  reliable : HasLedger.reliable m.master → HasLedger.reliable m'.master
  steps : Books.Steps m.expansion.network permitted (HasLedger.releaseRefused m'.master)
    m.books m'.books
  offers : ∀ o ∈ HasLedger.offers m'.master, o ∈ HasLedger.offers m.master ∨
    ∃ b, Books.Steps m.expansion.network permitted (HasLedger.releaseRefused m'.master) m.books b ∧
      b.Makes m.expansion.network o

/-- What part of a call comes to that gives nothing up besides what it added. -/
structure Grows (permitted : Leg → Prop) (m m' : Manager M α) : Prop
    extends Follows permitted m m' where
  phase : m'.phase = m.phase
  linking : m'.linking = m.linking
  flow : m.flow ⊆ m'.flow
  columns : m.columns ⊆ m'.columns

namespace Follows

theorem refl (m : Manager M α) : Follows permitted m m :=
  ⟨rfl, id, id, .refl, fun _ ho => .inl ho⟩

theorem trans (h : Follows permitted m m') (h' : Follows permitted m' m'') :
    Follows permitted m m'' := by
  have hsteps := Books.Steps.mono h.steps h'.releaseRefused
  have hrest := h.expansion ▸ h'.steps
  refine ⟨h'.expansion.trans h.expansion, h'.releaseRefused ∘ h.releaseRefused,
    h'.reliable ∘ h.reliable, hsteps.trans hrest, fun o ho => ?_⟩
  rcases h'.offers o ho with ho | ⟨b, hb, hmakes⟩
  · rcases h.offers o ho with ho | ⟨b, hb, hmakes⟩
    · exact .inl ho
    · exact .inr ⟨b, Books.Steps.mono hb h'.releaseRefused, hmakes⟩
  · rw [h.expansion] at hb hmakes
    exact .inr ⟨b, hsteps.trans hb, hmakes⟩

theorem of_comes {l : Ledger α} (hexpansion : m'.expansion = m.expansion)
    (hc : Comes m.master m'.master l [])
    (hsteps : Books.Steps m.expansion.network permitted (HasLedger.releaseRefused m'.master)
      m.books m'.books) : Follows permitted m m' :=
  ⟨hexpansion, hc.releaseRefused, hc.reliable, hsteps,
    fun o ho => .inl ((hc.offers o ho).resolve_right nofun)⟩

theorem of_step {l : Ledger α} (hexpansion : m'.expansion = m.expansion)
    (hc : Comes m.master m'.master l [])
    (hstep : Books.Step m.expansion.network permitted (HasLedger.releaseRefused m'.master)
      m.books { m'.books with ledger := l }) : Follows permitted m m' := by
  have hbooks : m'.books = { m'.books with ledger := l } := by
    rw [← hc.ledger]
    rfl
  refine .of_comes hexpansion hc ?_
  rw [hbooks]
  exact .single hstep

end Follows

namespace Grows

theorem refl (m : Manager M α) : Grows permitted m m :=
  ⟨.refl m, rfl, rfl, List.Subset.refl _, List.Subset.refl _⟩

theorem trans (h : Grows permitted m m') (h' : Grows permitted m' m'') : Grows permitted m m'' :=
  ⟨h.toFollows.trans h'.toFollows, h'.phase.trans h.phase, h'.linking.trans h.linking,
    List.Subset.trans h.flow h'.flow, List.Subset.trans h.columns h'.columns⟩

theorem of_step {l : Ledger α} {flow : List (Stop × RowId)} {columns : List (Leg × VariableId)}
    (hc : Comes m.master s l [])
    (hstep : Books.Step m.expansion.network permitted (HasLedger.releaseRefused s) m.books
      { m.books with ledger := l, flow, columns })
    (hflow : m.flow ⊆ flow) (hcolumns : m.columns ⊆ columns) :
    Grows permitted m { m with master := s, flow, columns } :=
  ⟨.of_step rfl hc hstep, rfl, rfl, hflow, hcolumns⟩

theorem of_idles (hc : Idles m.master s) : Grows permitted m { m with master := s } := by
  have hbooks : ({ m with master := s } : Manager M α).books = m.books := by
    rw [books, hc.ledger, books]
  refine ⟨.of_comes rfl hc ?_, rfl, rfl, List.Subset.refl _, List.Subset.refl _⟩
  rw [hbooks]

theorem of_offer {l : Ledger α} {r : Route} {used : List VariableId} {incumbent : Option α}
    (hc : Comes m.master s l
      [⟨HasLedger.ledger m.master, used.map fun v => (v, Scalar.ofNat 1)⟩])
    (htour : r.isTour? m.expansion.network = some true)
    (hused : List.Forall₂ (fun leg v => (leg, v) ∈ m.columns) r.legs used)
    (hsteps : Books.Steps m.expansion.network permitted (HasLedger.releaseRefused s) m.books
      { m.books with ledger := l, incumbent }) :
    Grows permitted m { m with master := s, incumbent } := by
  have hbooks : ({ m with master := s, incumbent } : Manager M α).books =
      { m.books with ledger := l, incumbent } := by
    rw [← hc.ledger]
    rfl
  refine ⟨⟨rfl, hc.releaseRefused, hc.reliable, ?_, fun o ho => ?_⟩, rfl, rfl,
    List.Subset.refl _, List.Subset.refl _⟩
  · rw [hbooks]
    exact hsteps
  · rcases hc.offers o ho with ho | ho
    · exact .inl ho
    · obtain rfl := List.mem_singleton.1 ho
      exact .inr ⟨m.books, .refl, rfl, r, used, htour, hused, rfl⟩

end Grows

omit [Scalar α] [HasLedger M α] in
theorem ask_spec {β : Type} {request : Ask M β} {Q : M → β → M → Prop} {R : M → M → Prop}
    (h : ∀ m, ⦃fun s => ⌜s = m⌝⦄ request ⦃post⟨fun b s => ⌜Q m b s⌝, fun _ s => ⌜R m s⌝⟩⦄)
    (m : Manager M α) : ⦃fun t => ⌜t = m⌝⦄ (ask request : Call M α β)
    ⦃post⟨fun b t => ⌜∃ s, t = { m with master := s } ∧ Q m.master b s⌝,
      fun _ t => ⌜∃ s, t = { m with master := s } ∧ R m.master s⌝⟩⦄ := by
  rw [triple_iff]
  rintro t rfl
  have hrun := triple_iff.1 (h t.master) _ rfl
  have hask : (ask request).run t = ((request.run t.master).1.mapError .master,
    { t with master := (request.run t.master).2 }) := rfl
  rw [hask]
  rcases hreq : request.run t.master with ⟨_ | _, s⟩ <;> rw [hreq] at hrun <;>
    exact ⟨s, rfl, hrun⟩

variable [Master M α] [LawfulMaster M]

theorem flowRow_spec (permitted : Leg → Prop) (s : Stop) (m : Manager M α) :
    ⦃fun t => ⌜t = m ∧ m.phase = .active ∧ s.vertex ≠ m.expansion.network.source⌝⦄
    (flowRow s : Call M α RowId)
    ⦃post⟨fun r t => ⌜Grows permitted m t ∧ t.columns = m.columns ∧ (s, r) ∈ t.flow⌝,
      fun _ t => ⌜Grows permitted m t⌝⟩⦄ := by
  have hrow (name : String) :=
    ask_spec (α := α) (LawfulMaster.addRow (M := M) name (Scalar.ofNat 0 : α))
  mvcgen [flowRow, hrow]
  case vc1 t h r hr =>
    obtain ⟨rfl, _⟩ := h
    obtain ⟨before, after, heq, _⟩ := List.lookup_eq_some_iff.1 hr
    exact ⟨.refl _, rfl, heq ▸ List.mem_append_right _ List.mem_cons_self⟩
  case vc2 t h hnone r u hu _ =>
    obtain ⟨rfl, hactive, hs⟩ := h
    obtain ⟨s', rfl, hc, rfl⟩ := hu
    refine ⟨.of_step hc (.row _ hactive hs hnone) (List.subset_append_left _ _)
      (List.Subset.refl _), rfl, ?_⟩
    exact List.mem_append_right _ (List.mem_singleton_self _)
  case vc3 t h _ e u =>
    obtain ⟨rfl, _⟩ := h
    rintro ⟨s', rfl, hc⟩
    exact .of_idles hc

theorem flowRow?_spec (permitted : Leg → Prop) (s : Stop) (m : Manager M α) :
    ⦃fun t => ⌜t = m ∧ m.phase = .active⌝⦄ (flowRow? s : Call M α (Option RowId))
    ⦃post⟨fun row t => ⌜Grows permitted m t ∧ t.columns = m.columns ∧
        Books.FlowAt m.expansion.network t.flow s row⌝, fun _ t => ⌜Grows permitted m t⌝⟩⦄ := by
  have hrow := flowRow_spec (M := M) permitted s
  mvcgen [flowRow?, hrow]
  case vc1 t h hs =>
    obtain ⟨rfl, _⟩ := h
    exact ⟨.refl _, rfl, hs⟩
  case vc2 t h hs =>
    obtain ⟨rfl, hactive⟩ := h
    exact ⟨trivial, hactive, hs⟩
  case vc3 t h hs r u =>
    obtain ⟨rfl, _⟩ := h
    exact fun hgrows hcolumns hr => ⟨hgrows, hcolumns, hs, hr⟩
  case vc4 t h _ e u =>
    obtain ⟨rfl, _⟩ := h
    exact id

omit [HasLedger M α] [LawfulMaster M] in
theorem enterColumn_eq (v : VariableId) (tail head : Option RowId) (link : RowId) :
    (enterColumn v tail head link : Ask M Unit) = (Books.entries tail head link).forM fun p =>
      (Master.addCoefficient p.1 v p.2 : Ask M Unit) := by
  cases tail <;> cases head <;> simp [enterColumn, Books.entries]

theorem enterColumn_spec (v : VariableId) (tail head : Option RowId) (link : RowId) (m : M) :
    ⦃fun s => ⌜s = m⌝⦄ (enterColumn v tail head link : Ask M Unit)
    ⦃post⟨fun _ s => ⌜∃ l, (HasLedger.ledger m).enter v (Books.entries tail head link) = .ok l ∧
        Comes m s l []⌝,
      fun _ s => ⌜∃ done l, (HasLedger.ledger m).enter v done = .ok l ∧ Comes m s l []⌝⟩⦄ := by
  rw [enterColumn_eq]
  have hloop := forM_spec (σ := M) (ε := MasterError)
    (I := fun rest s => ∃ done l, done ++ rest = Books.entries tail head link ∧
      (HasLedger.ledger m).enter v done = .ok l ∧ Comes m s l [])
    (R := fun _ s => ∃ done l, (HasLedger.ledger m).enter v done = .ok l ∧ Comes m s l [])
    (f := fun p => (Master.addCoefficient p.1 v p.2 : Ask M Unit)) (fun p rest => ?_)
    (Books.entries tail head link)
  · refine triple_pre (fun s hs => ?_) (triple_mono hloop (fun _ s h => ?_) fun _ _ => id)
    · subst hs
      exact ⟨[], HasLedger.ledger s, rfl, rfl, .refl s⟩
    · obtain ⟨done, l, heq, hl, hc⟩ := h
      rw [List.append_nil] at heq
      exact ⟨l, heq ▸ hl, hc⟩
  · apply triple_of_state
    rintro s ⟨done, l, heq, hl, hc⟩
    refine triple_mono (LawfulMaster.addCoefficient p.1 v p.2 s) (fun _ t h => ?_) fun _ t h => ?_
    · obtain ⟨l', hadd, hc'⟩ := h
      rw [hc.ledger] at hadd
      exact ⟨done ++ [p], l', by rw [List.append_assoc, List.singleton_append, heq],
        Ledger.enter_concat hl hadd, hc.trans hc'⟩
    · exact ⟨done, l, hl, hc.idle h⟩

omit [Master M α] [LawfulMaster M] in
theorem enterLeg_eq {s₀ s₁ : M} {leg : Leg} {name : String} {time : Nat} {domain : Domain}
    {l : Ledger α} {coefficients : List (RowId × α)} (htime : leg.travelTime? = some time)
    (hvar : Comes s₀ s₁ ((HasLedger.ledger s₀).addVariable name (Scalar.ofNat time) domain).2 [])
    (henter : (HasLedger.ledger s₁).enter ⟨(HasLedger.ledger s₀).columns.size⟩ coefficients =
      .ok l) : Books.enterLeg (HasLedger.ledger s₀) leg name domain coefficients = .ok l := by
  obtain ⟨_, rfl⟩ := Leg.travelTime?_eq_some_iff.1 htime
  rw [hvar.ledger] at henter
  exact henter

theorem materialize_spec (permitted : Leg → Prop) (leg : Leg) (m : Manager M α) :
    ⦃fun t => ⌜t = m ∧ permitted leg⌝⦄ (materialize leg : Call M α VariableId)
    ⦃post⟨fun v t => ⌜Grows permitted m t ∧ (leg, v) ∈ t.columns⌝,
      fun _ t => ⌜Grows permitted m t⌝⟩⦄ := by
  apply triple_of_state
  rintro m ⟨rfl, hleg⟩
  have hrow := flowRow?_spec (M := M) (α := α) permitted
  have hvar (name : String) (cost : α) (domain : Domain) := ask_spec (α := α)
    (LawfulMaster.addVariable (M := M) name cost domain)
  have henter (v : VariableId) (tail head : Option RowId) (link : RowId) :=
    ask_spec (α := α) (enterColumn_spec (M := M) v tail head link)
  have hrelease (v : VariableId) :=
    ask_spec (α := α) (LawfulMaster.releaseVariable (M := M) (α := α) v)
  mvcgen [materialize, ensureActive, hrow, hvar, henter, hrelease]
  case vc1 t ht _ =>
    subst ht
    exact .refl _
  case vc2 t ht _ v hv =>
    subst ht
    obtain ⟨before, after, heq, _⟩ := List.lookup_eq_some_iff.1 hv
    exact ⟨.refl _, heq ▸ List.mem_append_right _ List.mem_cons_self⟩
  case vc3 hactive _ => exact ⟨trivial, not_not.1 hactive⟩
  case vc4 t ht hactive _ tail t₁ h₁ =>
    subst ht
    exact ⟨trivial, h₁.1.phase.trans (not_not.1 hactive)⟩
  case vc5 t ht hactive hnone tail t₁ h₁ head t₂ h₂ link hlink _ _ time htime v t₃ h₃ _ t₄
      h₄ _ =>
    subst ht
    obtain ⟨s₃, rfl, hc₃, rfl⟩ := h₃
    obtain ⟨s₄, rfl, l, hl, hc₄⟩ := h₄
    have hgrows := h₁.1.trans h₂.1
    have henter := enterLeg_eq htime hc₃ hl
    have hcolumns : t₂.columns = t.columns := h₂.2.1.trans h₁.2.1
    refine ⟨hgrows.trans (.of_step (hc₃.trans hc₄) (.column ?_ hleg ?_ ?_ ?_ ?_ henter)
      (List.Subset.refl _) (List.subset_append_left _ _)), ?_⟩
    · exact hgrows.phase.trans (not_not.1 hactive)
    · change t₂.columns.lookup leg = none
      rw [hcolumns]
      exact hnone
    · rw [hgrows.expansion]
      exact h₁.2.2.mono h₂.1.flow
    · rw [hgrows.expansion]
      exact h₁.1.expansion ▸ h₂.2.2
    · exact hlink
    · exact List.mem_append_right _ (List.mem_singleton_self _)
  case vc6 t ht hactive _ tail t₁ h₁ head t₂ h₂ link _ _ _ time htime v t₃ h₃ e t₄ h₄ _
      t₅ h₅ =>
    subst ht
    obtain ⟨s₃, rfl, hc₃, rfl⟩ := h₃
    obtain ⟨s₄, rfl, done, l, hl, hc₄⟩ := h₄
    obtain ⟨s₅, rfl, l', hl', hc₅⟩ := h₅
    have hgrows := h₁.1.trans h₂.1
    rw [hc₄.ledger] at hl'
    refine hgrows.trans (.of_step ((hc₃.trans hc₄).trans hc₅)
      (.withdraw ?_ (enterLeg_eq htime hc₃ hl) hl') (List.Subset.refl _) (List.Subset.refl _))
    exact hgrows.phase.trans (not_not.1 hactive)
  case vc7 t ht hactive _ tail t₁ h₁ head t₂ h₂ link _ _ _ time htime v t₃ h₃ e t₄ h₄ e'
      t₅ =>
    subst ht
    obtain ⟨s₃, rfl, hc₃, rfl⟩ := h₃
    obtain ⟨s₄, rfl, done, l, hl, hc₄⟩ := h₄
    rintro ⟨s₅, rfl, hc₅, hor⟩
    have hgrows := h₁.1.trans h₂.1
    have henter := enterLeg_eq htime hc₃ hl
    have hrefused : HasLedger.releaseRefused s₅ := by
      apply hor.resolve_right
      rintro ⟨e, he⟩
      have hused : (l.usedVariable? ⟨(HasLedger.ledger t₂.master).columns.size⟩).isSome := by
        rw [← Option.isSome_map, (Books.changes_of_enterLeg henter).2]
        rfl
      obtain ⟨l', hl'⟩ := Ledger.exists_releaseVariable hused
      rw [hc₄.ledger, hl'] at he
      cases he
    refine hgrows.trans (.of_step ((hc₃.trans hc₄).idle hc₅) (.orphan hrefused ?_ henter)
      (List.Subset.refl _) (List.Subset.refl _))
    exact hgrows.phase.trans (not_not.1 hactive)
  case vc8 t ht _ _ tail t₁ h₁ head t₂ h₂ link _ _ _ _ _ e t₃ =>
    subst ht
    rintro ⟨s₃, rfl, hc₃⟩
    exact (h₁.1.trans h₂.1).trans (.of_idles hc₃)
  case vc9 t ht _ _ tail t₁ h₁ head t₂ h₂ _ _ _ _ _ _ _ =>
    subst ht
    exact h₁.1.trans h₂.1
  case vc10 t ht _ _ tail t₁ h₁ head t₂ h₂ _ _ _ =>
    subst ht
    exact h₁.1.trans h₂.1
  case vc11 t ht _ _ tail t₁ h₁ e t₂ =>
    subst ht
    exact h₁.1.trans
  case vc12 t ht _ _ e t₁ =>
    subst ht
    exact id

theorem addRoute_spec (permitted : Leg → Prop) (r : Route) (m : Manager M α) :
    ⦃fun t => ⌜t = m ∧ ∀ leg ∈ r.legs, permitted leg⌝⦄ (addRoute r : Call M α Bool)
    ⦃post⟨fun _ t => ⌜Grows permitted m t⌝, fun _ t => ⌜Grows permitted m t⌝⟩⦄ := by
  apply triple_of_state
  rintro m ⟨rfl, hr⟩
  have hused := mapM_spec (G := Grows (M := M) (α := α) permitted)
    (T := fun leg v t => (leg, v) ∈ t.columns) Grows.refl (fun _ _ _ => Grows.trans)
    (fun _ _ _ _ hmem hgrows => hgrows.columns hmem)
    (fun leg hl m => triple_pre (fun _ ht => ⟨ht, hr leg hl⟩) (materialize_spec permitted leg m))
  have hsubmit (assignment : List (VariableId × α)) :=
    ask_spec (α := α) (LawfulMaster.submit (M := M) assignment)
  mvcgen [addRoute, ensureActive, hused, hsubmit]
  case vc1 t ht _ =>
    subst ht
    exact .refl _
  case vc2 t ht _ used t₁ h₁ _ =>
    subst ht
    exact h₁.1
  case vc3 t ht _ used t₁ h₁ _ =>
    subst ht
    exact h₁.1
  case vc4 t ht hactive used t₁ h₁ htour accepted _ haccepted time htime value t₂ h₂ _ =>
    subst ht
    obtain ⟨s, rfl, l, hl, hc⟩ := h₂
    refine h₁.1.trans ?_
    have hactive₁ := h₁.1.phase.trans (not_not.1 hactive)
    have hbest := Books.improved_of_travelTime? t₁.incumbent htime
    change Grows permitted t₁ (if t₁.incumbent.all (value < ·) = true then _ else _)
    split
    · rename_i hall
      exact .of_offer hc htour h₁.2 (.single (.submit hactive₁ htour h₁.2 hl
        ((if_pos haccepted).trans (hbest.trans (if_pos hall))).symm))
    · rename_i hall
      exact .of_offer hc htour h₁.2 (.single (.submit hactive₁ htour h₁.2 hl
        ((if_pos haccepted).trans (hbest.trans (if_neg hall))).symm))
  case vc5 t ht hactive used t₁ h₁ htour accepted _ haccepted time hnone htime t₂ h₂ =>
    subst ht
    obtain ⟨s, rfl, l, hl, hc⟩ := h₂
    have hactive₁ := h₁.1.phase.trans (not_not.1 hactive)
    obtain rfl : time = none := Option.eq_none_iff_forall_ne_some.2 hnone
    have hbest : Books.improved t₁.incumbent r = t₁.incumbent := by
      rw [Books.improved, htime]
    exact h₁.1.trans (.of_offer hc htour h₁.2
      (.single (.submit hactive₁ htour h₁.2 hl ((if_pos haccepted).trans hbest).symm)))
  case vc6 t ht hactive used t₁ h₁ htour accepted _ haccepted t₂ h₂ =>
    subst ht
    obtain ⟨s, rfl, l, hl, hc⟩ := h₂
    have hactive₁ := h₁.1.phase.trans (not_not.1 hactive)
    exact h₁.1.trans (.of_offer hc htour h₁.2
      (.single (.submit hactive₁ htour h₁.2 hl (if_neg haccepted).symm)))
  case vc7 t ht _ used t₁ h₁ htour e t₂ =>
    subst ht
    rintro ⟨s, rfl, hc⟩
    exact h₁.1.trans (.of_offer hc htour h₁.2 .refl)
  case vc8 t ht _ e t₁ =>
    subst ht
    exact id

omit [Scalar α] [HasLedger M α] [Master M α] [LawfulMaster M] in
theorem trace_spec (vertices : List Nat) (m : Manager M α) :
    ⦃fun t => ⌜t = m⌝⦄ (trace vertices : Call M α Route)
    ⦃post⟨fun r t => ⌜t = m ∧ m.expansion.trace vertices = .ok r⌝, fun _ t => ⌜t = m⌝⟩⦄ := by
  mvcgen [trace]
  case vc1 t ht r hr =>
    subst ht
    exact ⟨rfl, hr⟩

theorem addTour_spec (permitted : Leg → Prop) (vertices : List Nat) (m : Manager M α) :
    ⦃fun t => ⌜t = m ∧ m.expansion.Finds α permitted⌝⦄ (addTour vertices : Call M α Bool)
    ⦃post⟨fun _ t => ⌜Grows permitted m t⌝, fun _ t => ⌜Grows permitted m t⌝⟩⦄ := by
  have htrace := trace_spec (M := M) (α := α) vertices
  have hroute (r : Route) := addRoute_spec (M := M) (α := α) permitted r
  mvcgen [addTour, ensureActive, htrace, hroute]
  case vc1 t h _ =>
    obtain ⟨rfl, _⟩ := h
    exact .refl _
  case vc2 t h _ r u hu =>
    obtain ⟨rfl, hfinds⟩ := h
    obtain ⟨rfl, hr⟩ := hu
    exact ⟨rfl, hfinds.traced vertices r hr⟩
  case vc3 t h _ e u =>
    obtain ⟨rfl, _⟩ := h
    rintro rfl
    exact .refl _

theorem ofMaster_spec (kind : CostKind) (incumbent bestBound : Option α) (m : M) :
    ⦃fun s => ⌜s = m⌝⦄ (Round.ofMaster kind incumbent bestBound : Ask M (Round α))
    ⦃post⟨fun _ s => ⌜Idles m s⌝, fun _ s => ⌜Idles m s⌝⟩⦄ := by
  have hduals := LawfulMaster.duals (M := M) (α := α)
  have hobjective := LawfulMaster.objective (M := M) (α := α)
  mvcgen [Round.ofMaster, hduals, hobjective]
  case vc1 s hs _ _ _ t ht _ u hu =>
    subst hs
    exact ht.idle hu
  case vc2 s hs _ _ _ t ht e u =>
    subst hs
    exact ht.idle
  case vc3 s hs _ _ _ t ht =>
    subst hs
    exact ht
  case vc4 s hs e t =>
    subst hs
    exact id

omit [Master M α] [LawfulMaster M] in
theorem Grows.of_books (hexpansion : m'.expansion = m.expansion) (hmaster : m'.master = m.master)
    (hbooks : m'.books = m.books) : Grows permitted m m' := by
  refine ⟨⟨hexpansion, fun h => ?_, fun h => ?_, ?_, fun o ho => .inl ?_⟩,
    congrArg Books.phase hbooks, congrArg Books.linking hbooks, ?_, ?_⟩
  · rwa [hmaster]
  · rwa [hmaster]
  · rw [hbooks]
  · rwa [← hmaster]
  · have hflow : m'.flow = m.flow := congrArg Books.flow hbooks
    rw [hflow]
    exact List.Subset.refl _
  · have hcolumns : m'.columns = m.columns := congrArg Books.columns hbooks
    rw [hcolumns]
    exact List.Subset.refl _

omit [Master M α] [LawfulMaster M] in
theorem Grows.of_round (hc : Idles m.master s) (pricer : Pricer α) :
    Grows permitted m { m with master := s, pricer } :=
  (Grows.of_idles hc).trans (.of_books rfl rfl rfl)

omit [Master M α] [LawfulMaster M] in
theorem grows_forM {β γ : Type} {f : γ → Call M α β} {P : γ → Prop} (l : List γ)
    (hf : ∀ a m, ⦃fun t => ⌜t = m ∧ P a⌝⦄ f a
      ⦃post⟨fun _ t => ⌜Grows permitted m t⌝, fun _ t => ⌜Grows permitted m t⌝⟩⦄)
    (m : Manager M α) :
    ⦃fun t => ⌜t = m ∧ ∀ a ∈ l, P a⌝⦄ l.forM fun a => discard (f a)
    ⦃post⟨fun _ t => ⌜Grows permitted m t⌝, fun _ t => ⌜Grows permitted m t⌝⟩⦄ := by
  have hloop := forM_spec (σ := Manager M α) (ε := PricingError α)
    (I := fun rest t => Grows permitted m t ∧ ∀ a ∈ rest, P a)
    (R := fun _ t => Grows permitted m t) (f := fun a => discard (f a)) (fun a rest => ?_) l
  · refine triple_pre (fun t ht => ?_) (triple_mono hloop (fun _ _ h => h.1) fun _ _ => id)
    obtain ⟨rfl, hP⟩ := ht
    exact ⟨.refl _, hP⟩
  · apply triple_of_state
    rintro t ⟨hgrows, hP⟩
    have hstep := discard_spec (hf a t)
    refine triple_pre (fun u hu => ?_) (triple_mono hstep (fun _ u hu => ?_) fun _ u hu => ?_)
    · exact ⟨hu, hP a List.mem_cons_self⟩
    · exact ⟨hgrows.trans hu, fun b hb => hP b (List.mem_cons_of_mem _ hb)⟩
    · exact hgrows.trans hu

theorem price_spec (permitted : Leg → Prop) (kind : CostKind) (m : Manager M α) :
    ⦃fun t => ⌜t = m ∧ m.expansion.Finds α permitted⌝⦄
    (price kind : Call M α (PricingOutcome α))
    ⦃post⟨fun _ t => ⌜Grows permitted m t⌝, fun _ t => ⌜Grows permitted m t⌝⟩⦄ := by
  apply triple_of_state
  rintro m ⟨rfl, hfinds⟩
  have hround (incumbent bestBound : Option α) :=
    ask_spec (α := α) (ofMaster_spec (M := M) kind incumbent bestBound)
  have hlegs (legs : List Leg) := grows_forM (M := M) (α := α) legs
    fun leg m => triple_mono (materialize_spec permitted leg m) (fun _ _ h => h.1) fun _ _ => id
  have hroutes (routes : List Route) := grows_forM (M := M) (α := α) routes
    (addRoute_spec permitted)
  mvcgen [price, hround, hlegs, hroutes]
  case vc1 t ht round t₁ h₁ _ c hc =>
    subst ht
    obtain ⟨s, rfl, hc⟩ := h₁
    exact .of_round hc _
  case vc2 t ht round t₁ h₁ _ found hfound =>
    subst ht
    exact ⟨trivial, (hfinds.priced _ _ _ hfound).legs⟩
  case vc3 t ht round t₁ h₁ _ found hfound _ t₂ h₂ =>
    subst ht
    exact ⟨trivial, (hfinds.priced _ _ _ hfound).routes⟩
  case vc4 t ht round t₁ h₁ _ found hfound _ t₂ h₂ _ t₃ h₃ =>
    subst ht
    obtain ⟨s, rfl, hc⟩ := h₁
    exact (Grows.of_round hc _).trans (h₂.trans h₃)
  case vc5 t ht round t₁ h₁ _ found hfound _ t₂ h₂ e t₃ =>
    subst ht
    obtain ⟨s, rfl, hc⟩ := h₁
    intro h₃
    exact (Grows.of_round hc _).trans (h₂.trans h₃)
  case vc6 t ht round t₁ h₁ _ found hfound e t₂ =>
    subst ht
    obtain ⟨s, rfl, hc⟩ := h₁
    intro h₂
    exact (Grows.of_round hc _).trans h₂
  case vc7 t ht e t₁ =>
    subst ht
    rintro ⟨s, rfl, hc⟩
    exact .of_idles hc

theorem farkasPricing_spec (permitted : Leg → Prop) (m : Manager M α) :
    ⦃fun t => ⌜t = m ∧ m.expansion.Finds α permitted⌝⦄
    (farkasPricing : Call M α (PricingOutcome α))
    ⦃post⟨fun _ t => ⌜Grows permitted m t⌝, fun _ t => ⌜Grows permitted m t⌝⟩⦄ := by
  have hprice := price_spec (M := M) (α := α) permitted .farkas
  have htour (vertices : List Nat) (m : Manager M α) :=
    discard_spec (addTour_spec (M := M) (α := α) permitted vertices m)
  mvcgen [farkasPricing, ensureActive, hprice, htour]
  case vc1 t h _ =>
    obtain ⟨rfl, _⟩ := h
    exact .refl _
  case vc3 t h _ _ =>
    obtain ⟨rfl, hfinds⟩ := h
    exact ⟨trivial, hfinds⟩
  case vc4 t h _ _ _ t₁ h₁ _ =>
    obtain ⟨rfl, _⟩ := h
    exact h₁.trans (.of_books rfl rfl rfl)
  case vc5 t h _ _ e t₁ =>
    obtain ⟨rfl, _⟩ := h
    exact id

theorem reducedCostPricing_spec (permitted : Leg → Prop) (m : Manager M α) :
    ⦃fun t => ⌜t = m ∧ m.expansion.Finds α permitted⌝⦄
    (reducedCostPricing : Call M α (PricingOutcome α))
    ⦃post⟨fun _ t => ⌜Grows permitted m t⌝, fun _ t => ⌜Grows permitted m t⌝⟩⦄ := by
  have hprice := price_spec (M := M) (α := α) permitted .reduced
  mvcgen [reducedCostPricing, ensureActive, hprice]
  case vc1 t h _ =>
    obtain ⟨rfl, _⟩ := h
    exact .refl _
  case vc2 t h _ =>
    obtain ⟨rfl, hfinds⟩ := h
    exact ⟨trivial, hfinds⟩
  case vc3 t h _ outcome _ bound _ t₁ h₁ _ =>
    obtain ⟨rfl, _⟩ := h
    refine h₁.trans ?_
    change Grows permitted t₁ (if t₁.bestBound.all (· < bound) = true then _ else t₁)
    split
    · exact .of_books rfl rfl rfl
    · exact .refl _
  case vc4 t h _ _ _ _ _ _ t₁ h₁ =>
    obtain ⟨rfl, _⟩ := h
    exact h₁
  case vc5 t h _ e t₁ =>
    obtain ⟨rfl, _⟩ := h
    exact id

theorem reoptimize_spec (permitted : Leg → Prop) (m : Manager M α) :
    ⦃fun t => ⌜t = m⌝⦄ (reoptimize : Call M α LpStatus)
    ⦃post⟨fun _ t => ⌜Grows permitted m t⌝, fun _ t => ⌜Grows permitted m t⌝⟩⦄ := by
  refine triple_mono (ask_spec (LawfulMaster.reoptimize (M := M) (α := α)) m) (fun _ t h => ?_)
    fun _ t h => ?_
  · obtain ⟨s, rfl, settings, hc⟩ := h
    exact .of_step hc (.reoptimize settings) (List.Subset.refl _) (List.Subset.refl _)
  · obtain ⟨s, rfl, hc⟩ := h
    exact .of_idles hc

end Manager

end TourPricing
