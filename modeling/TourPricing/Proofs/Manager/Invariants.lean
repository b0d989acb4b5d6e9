import TourPricing.Proofs.Manager.Books

namespace TourPricing.Books

variable {α : Type} [Scalar α]

/-- A variable stands for a leg: it costs the time of the leg, and has one coefficient for each end
of the leg that has a row and one for its edge. -/
structure Posted (N : Network) (flow : List (Stop × RowId)) (l : Ledger α) (leg : Leg)
    (v : VariableId) : Prop where
  objective : (l.usedVariable? v).map (·.objective) = some (Scalar.ofNat leg.travelTime)
  edge_lt : leg.edge < N.edgeCount
  coefficients : ∃ tail head, FlowAt N flow leg.tail tail ∧ FlowAt N flow leg.head head ∧
    ∀ r, l.coefficientsAt r v = Ledger.amounts (entries tail head ⟨leg.edge⟩) r

/-- Whatever was refused, the entries of the tables mean what they should. -/
structure Sound (N : Network) (permitted : Leg → Prop) (b : Books α) : Prop where
  linking : b.phase = .active → b.linking = (List.range N.edgeCount).map .mk
  edges : b.phase = .active → N.edgeCount ≤ b.ledger.linkingCount
  linked : ∀ r : RowId, r.index < b.ledger.linkingCount → (b.ledger.usedRow? r).isSome
  fresh : ∀ r v, b.ledger.columns.size ≤ v.index → b.ledger.coefficientsAt r v = []
  idle : b.phase ≠ .active → b.flow = [] ∧ b.columns = []
  flow_table : OneToOne b.flow
  flow_row : ∀ p ∈ b.flow, p.1.vertex ≠ N.source ∧ b.ledger.linkingCount ≤ p.2.index ∧
    (b.ledger.usedRow? p.2).isSome
  column_table : OneToOne b.columns
  permitted : ∀ p ∈ b.columns, permitted p.1
  posted : ∀ p ∈ b.columns, Posted N b.flow b.ledger p.1 p.2

/-- The ledger has nothing in use besides what the tables list. -/
structure Exact (b : Books α) : Prop where
  columns : ∀ v, (b.ledger.usedVariable? v).isSome → ∃ leg, (leg, v) ∈ b.columns
  rows : ∀ r : RowId, b.ledger.linkingCount ≤ r.index → (b.ledger.usedRow? r).isSome →
    ∃ s, (s, r) ∈ b.flow
  coefficients : ∀ r v, b.ledger.coefficientsAt r v ≠ [] → ∃ leg, (leg, v) ∈ b.columns

variable {N : Network} {permitted : Leg → Prop} {faulty : Prop} {b b' : Books α} {l l' : Ledger α}
  {flow flow' : List (Stop × RowId)} {leg : Leg} {v : VariableId} {name : String} {domain : Domain}
  {coefficients : List (RowId × α)}

theorem Posted.mono (h : Posted N flow l leg v) (hsub : flow ⊆ flow')
    (hused : l'.usedVariable? v = l.usedVariable? v)
    (hcoef : ∀ r, l'.coefficientsAt r v = l.coefficientsAt r v) : Posted N flow' l' leg v := by
  obtain ⟨tail, head, htail, hhead, hall⟩ := h.coefficients
  refine ⟨hused ▸ h.objective, h.edge_lt, tail, head, htail.mono hsub, hhead.mono hsub, fun r => ?_⟩
  rw [hcoef, hall]

theorem Posted.isSome (h : Posted N flow l leg v) : (l.usedVariable? v).isSome := by
  rw [← Option.isSome_map, h.objective]
  rfl

namespace Sound

theorem mono {permitted' : Leg → Prop} (h : Sound N permitted b)
    (hsub : ∀ leg, permitted leg → permitted' leg) : Sound N permitted' b :=
  { h with permitted := fun p hp => hsub p.1 (h.permitted p hp) }

theorem ne_next (h : Sound N permitted b) : ∀ p ∈ b.columns, p.2 ≠ ⟨b.ledger.columns.size⟩ := by
  intro p hp he
  have hlt := Ledger.lt_of_usedVariable? (h.posted p hp).isSome
  rw [he] at hlt
  exact Nat.lt_irrefl _ hlt

theorem linkingCount_le (h : Sound N permitted b) : b.ledger.linkingCount ≤ b.ledger.rows.size := by
  cases hn : b.ledger.linkingCount with
  | zero => exact Nat.zero_le _
  | succ n =>
    have hused := h.linked ⟨n⟩ (by rw [hn]; exact Nat.lt_succ_self n)
    exact Ledger.lt_of_usedRow? hused

theorem link_eq (h : Sound N permitted b) (hactive : b.phase = .active) {e : Nat} {link : RowId}
    (hlink : b.linking[e]? = some link) : e < N.edgeCount ∧ link = ⟨e⟩ := by
  rw [h.linking hactive] at hlink
  obtain ⟨hlt, he⟩ := List.getElem?_eq_some_iff.1 hlink
  rw [List.length_map, List.length_range] at hlt
  rw [List.getElem_map, List.getElem_range] at he
  exact ⟨hlt, he.symm⟩

theorem relist (h : Sound N permitted b) {columns : List (Leg × VariableId)}
    (hflow : flow.Subperm b.flow) (hcolumns : columns.Subperm b.columns)
    (hor : columns = [] ∨ b.flow ⊆ flow) : Sound N permitted { b with flow, columns } where
  linking := h.linking
  edges := h.edges
  linked := h.linked
  fresh := h.fresh
  idle hp := by
    obtain ⟨hf, hc⟩ := h.idle hp
    exact ⟨List.subperm_nil.1 (hf ▸ hflow), List.subperm_nil.1 (hc ▸ hcolumns)⟩
  flow_table := h.flow_table.subperm hflow
  flow_row p hp := h.flow_row p (hflow.subset hp)
  column_table := h.column_table.subperm hcolumns
  permitted p hp := h.permitted p (hcolumns.subset hp)
  posted p hp := by
    rcases hor with rfl | hsub
    · exact absurd hp List.not_mem_nil
    · exact (h.posted p (hcolumns.subset hp)).mono hsub rfl fun _ => rfl

theorem of_sameModel (h : Sound N permitted b) (hl : Ledger.SameModel b.ledger l)
    (incumbent : Option α) : Sound N permitted { b with ledger := l, incumbent } where
  linking := h.linking
  edges hp := hl.linkingCount ▸ h.edges hp
  linked r hr := by
    rw [hl.usedRow?]
    exact h.linked r (hl.linkingCount ▸ hr)
  fresh r v hv := by
    rw [hl.coefficientsAt]
    exact h.fresh r v (hl.columns ▸ hv)
  idle := h.idle
  flow_table := h.flow_table
  flow_row p hp := by
    rw [hl.usedRow?, hl.linkingCount]
    exact h.flow_row p hp
  column_table := h.column_table
  permitted := h.permitted
  posted p hp := (h.posted p hp).mono (List.Subset.refl _) (hl.usedVariable? _)
    fun r => hl.coefficientsAt r _

theorem of_changes (h : Sound N permitted b) (hl : Ledger.ChangesOnly v b.ledger l)
    {columns : List (Leg × VariableId)} (hsub : columns.Sublist b.columns)
    (hv : ∀ p ∈ columns, p.2 ≠ v) : Sound N permitted { b with ledger := l, columns } where
  linking := h.linking
  edges hp := hl.linkingCount ▸ h.edges hp
  linked r hr := by
    rw [hl.rows]
    exact h.linked r (hl.linkingCount ▸ hr)
  fresh r w hw := by
    have hne : w ≠ v := fun he => Nat.not_lt.2 hw (he ▸ hl.known)
    rw [hl.coefficients r w hne]
    exact h.fresh r w (Nat.le_trans hl.size hw)
  idle hp := by
    obtain ⟨hflow, hcolumns⟩ := h.idle hp
    exact ⟨hflow, List.eq_nil_of_sublist_nil (hcolumns ▸ hsub)⟩
  flow_table := h.flow_table
  flow_row p hp := by
    rw [hl.rows, hl.linkingCount]
    exact h.flow_row p hp
  column_table := h.column_table.subperm hsub.subperm
  permitted p hp := h.permitted p (hsub.subset hp)
  posted p hp := (h.posted p (hsub.subset hp)).mono (List.Subset.refl _) (hl.used _ (hv p hp))
    fun r => hl.coefficients r _ (hv p hp)

theorem concat (h : Sound N permitted b) (hactive : b.phase = .active) (hleg : permitted leg)
    (hnew : b.columns.lookup leg = none) (hv : ∀ p ∈ b.columns, p.2 ≠ v)
    (hposted : Posted N b.flow b.ledger leg v) :
    Sound N permitted { b with columns := b.columns ++ [(leg, v)] } where
  linking := h.linking
  edges := h.edges
  linked := h.linked
  fresh := h.fresh
  idle hp := absurd hactive hp
  flow_table := h.flow_table
  flow_row := h.flow_row
  column_table := h.column_table.concat hnew hv
  permitted p hp := by
    rcases List.mem_append.1 hp with hp | hp
    · exact h.permitted p hp
    · obtain rfl := List.mem_singleton.1 hp
      exact hleg
  posted p hp := by
    rcases List.mem_append.1 hp with hp | hp
    · exact h.posted p hp
    · obtain rfl := List.mem_singleton.1 hp
      exact hposted

theorem addRow (h : Sound N permitted b) (hactive : b.phase = .active) {s : Stop}
    (hs : s.vertex ≠ N.source) (hnew : b.flow.lookup s = none) (name : String) (rhs : α) :
    Sound N permitted { b with
      ledger := (b.ledger.addRow name rhs).2
      flow := b.flow ++ [(s, ⟨b.ledger.rows.size⟩)] } where
  linking := h.linking
  edges := h.edges
  linked r hr := by
    rw [Ledger.usedRow?_addRow]
    split
    · rfl
    · exact h.linked r hr
  fresh r v hv := by
    rw [Ledger.coefficientsAt_addRow]
    exact h.fresh r v hv
  idle hp := absurd hactive hp
  flow_table := by
    refine h.flow_table.concat hnew fun p hp he => ?_
    have hlt := Ledger.lt_of_usedRow? (h.flow_row p hp).2.2
    rw [he] at hlt
    exact Nat.lt_irrefl _ hlt
  flow_row p hp := by
    rw [Ledger.usedRow?_addRow]
    rcases List.mem_append.1 hp with hp | hp
    · obtain ⟨hsource, hle, hused⟩ := h.flow_row p hp
      refine ⟨hsource, hle, ?_⟩
      split
      · rfl
      · exact hused
    · obtain rfl := List.mem_singleton.1 hp
      rw [if_pos rfl]
      exact ⟨hs, h.linkingCount_le, rfl⟩
  column_table := h.column_table
  permitted := h.permitted
  posted p hp := (h.posted p hp).mono (List.subset_append_left _ _) rfl
    fun r => b.ledger.coefficientsAt_addRow name rhs r _

theorem releaseRow (h : Sound N permitted b) (hcolumns : b.columns = []) {s : Stop} {r : RowId}
    {rest : List (Stop × RowId)} (hflow : b.flow = (s, r) :: rest)
    (hl : b.ledger.withoutRow r = .ok l) :
    Sound N permitted { b with ledger := l, flow := rest } := by
  have htable := hflow ▸ h.flow_table
  have hle : b.ledger.linkingCount ≤ r.index :=
    (h.flow_row (s, r) (hflow ▸ List.mem_cons_self)).2.1
  have hcount : l.linkingCount = b.ledger.linkingCount := by
    obtain ⟨_, rfl⟩ := Ledger.eq_of_releaseRow hl
    rfl
  have hsize : l.columns.size = b.ledger.columns.size := by
    obtain ⟨_, rfl⟩ := Ledger.eq_of_releaseRow hl
    rfl
  constructor
  case linking => exact h.linking
  case edges => exact fun hp => hcount ▸ h.edges hp
  case linked =>
    intro t ht
    have hne : t ≠ r := fun he => Nat.not_lt.2 hle (hcount ▸ he ▸ ht)
    rw [Ledger.usedRow?_of_releaseRow hl, if_neg hne]
    exact h.linked t (hcount ▸ ht)
  case fresh =>
    intro t v hv
    rw [Ledger.coefficientsAt_of_releaseRow hl]
    exact h.fresh t v (hsize ▸ hv)
  case idle =>
    intro hp
    rw [(h.idle hp).1] at hflow
    exact nomatch hflow
  case flow_table => exact htable.subperm (List.sublist_cons_self _ _).subperm
  case flow_row =>
    intro p hp
    rw [Ledger.usedRow?_of_releaseRow hl, if_neg (htable.not_mem_rest p hp), hcount]
    exact h.flow_row p (hflow ▸ List.mem_cons_of_mem _ hp)
  case column_table => exact h.column_table
  case permitted => exact h.permitted
  case posted => exact fun p hp => absurd (hcolumns ▸ hp) List.not_mem_nil

end Sound

/-- What is in the tables stays sound in each step. -/
theorem Step.sound (h : Step N permitted faulty b b') (hb : Sound N permitted b) :
    Sound N permitted b' := by
  cases h with
  | reoptimize settings => exact hb.of_sameModel (b.ledger.sameModel_apply settings) b.incumbent
  | init _ hle =>
    exact { hb with
      linking := fun _ => rfl
      edges := fun _ => hle
      idle := fun hp => absurd rfl hp }
  | row name hactive hs hnew => exact hb.addRow hactive hs hnew name _
  | @column leg name domain tail head link l hactive hleg hnew htail hhead hlink hl =>
    obtain ⟨hchanges, hobjective⟩ := changes_of_enterLeg hl
    obtain ⟨hlt, rfl⟩ := hb.link_eq hactive hlink
    have hsound := hb.of_changes hchanges (List.Sublist.refl _) hb.ne_next
    have hall := coefficientsAt_of_enterLeg hl fun r => hb.fresh r _ (Nat.le_refl _)
    exact hsound.concat hactive hleg hnew hb.ne_next
      ⟨hobjective, hlt, tail, head, htail, hhead, hall⟩
  | withdraw _ hl hl' =>
    have hchanges := (changes_of_enterLeg hl).1.trans (Ledger.changes_of_releaseVariable hl')
    exact hb.of_changes hchanges (List.Sublist.refl _) hb.ne_next
  | orphan _ _ hl =>
    exact hb.of_changes (changes_of_enterLeg hl).1 (List.Sublist.refl _) hb.ne_next
  | submit _ _ _ hl => exact hb.of_sameModel (Ledger.sameModel_of_submit hl) _
  | releaseColumn _ hcolumns hl =>
    have hchanges := Ledger.changes_of_releaseVariable hl
    have htable := hcolumns ▸ hb.column_table
    exact hb.of_changes hchanges (hcolumns ▸ List.sublist_cons_self _ _) htable.not_mem_rest
  | loseColumns => exact hb.relist (List.Subperm.refl _) List.nil_subperm (.inl rfl)
  | releaseRow _ hcolumns hflow hl => exact hb.releaseRow hcolumns hflow hl
  | loseRows _ hcolumns =>
    exact hb.relist List.nil_subperm (List.Subperm.refl _) (.inl hcolumns)
  | exit _ hcolumns hflow =>
    exact { hb with
      linking := fun hp => nomatch hp
      edges := fun hp => nomatch hp
      idle := fun _ => ⟨hflow, hcolumns⟩ }
  | reorder hflow hcolumns =>
    exact hb.relist hflow.subperm hcolumns.subperm (.inr hflow.symm.subset)

theorem Steps.sound (h : Steps N permitted faulty b b') (hb : Sound N permitted b) :
    Sound N permitted b' := by
  induction h with
  | refl => exact hb
  | tail _ hstep ih => exact hstep.sound ih

namespace Exact

omit [Scalar α]

theorem of_sameModel (h : Exact b) (hl : Ledger.SameModel b.ledger l) (incumbent : Option α) :
    Exact { b with ledger := l, incumbent } where
  columns v hv := h.columns v (hl.usedVariable? v ▸ hv)
  rows r hr hused := h.rows r (hl.linkingCount ▸ hr) (hl.usedRow? r ▸ hused)
  coefficients r v hv := h.coefficients r v (hl.coefficientsAt r v ▸ hv)

theorem relist (h : Exact b) {columns : List (Leg × VariableId)} (hflow : b.flow ⊆ flow)
    (hcolumns : b.columns ⊆ columns) : Exact { b with flow, columns } where
  columns v hv := (h.columns v hv).imp fun _ hleg => hcolumns hleg
  rows r hr hused := (h.rows r hr hused).imp fun _ hs => hflow hs
  coefficients r v hv := (h.coefficients r v hv).imp fun _ hleg => hcolumns hleg

theorem of_changes (h : Exact b) (hl : Ledger.ChangesOnly v b.ledger l)
    {columns : List (Leg × VariableId)}
    (hsub : ∀ leg w, (leg, w) ∈ b.columns → w ≠ v → (leg, w) ∈ columns)
    (hv : (∃ leg, (leg, v) ∈ columns) ∨
      l.usedVariable? v = none ∧ ∀ r, l.coefficientsAt r v = []) :
    Exact { b with ledger := l, columns } where
  columns w hw := by
    by_cases he : w = v
    · subst he
      refine hv.resolve_right fun hout => ?_
      rw [hout.1] at hw
      exact nomatch hw
    · rw [hl.used w he] at hw
      obtain ⟨leg, hleg⟩ := h.columns w hw
      exact ⟨leg, hsub leg w hleg he⟩
  rows r hr hused := h.rows r (hl.linkingCount ▸ hr) (hl.rows r ▸ hused)
  coefficients r w hw := by
    by_cases he : w = v
    · subst he
      exact hv.resolve_right fun hout => hw (hout.2 r)
    · rw [hl.coefficients r w he] at hw
      obtain ⟨leg, hleg⟩ := h.coefficients r w hw
      exact ⟨leg, hsub leg w hleg he⟩

theorem addRow (h : Exact b) (s : Stop) (name : String) (rhs : α) :
    Exact { b with
      ledger := (b.ledger.addRow name rhs).2
      flow := b.flow ++ [(s, ⟨b.ledger.rows.size⟩)] } where
  columns := h.columns
  rows r hr hused := by
    rw [Ledger.usedRow?_addRow] at hused
    split at hused
    · rename_i he
      exact ⟨s, List.mem_append_right _ (he ▸ List.mem_singleton_self _)⟩
    · obtain ⟨t, ht⟩ := h.rows r hr hused
      exact ⟨t, List.mem_append_left _ ht⟩
  coefficients r v hv := h.coefficients r v (b.ledger.coefficientsAt_addRow name rhs r v ▸ hv)

theorem releaseRow (h : Exact b) {s : Stop} {r : RowId} {rest : List (Stop × RowId)}
    (hflow : b.flow = (s, r) :: rest) (hl : b.ledger.withoutRow r = .ok l) :
    Exact { b with ledger := l, flow := rest } where
  columns v hv := by
    obtain ⟨_, rfl⟩ := Ledger.eq_of_releaseRow hl
    exact h.columns v hv
  rows t ht hused := by
    rw [Ledger.usedRow?_of_releaseRow hl] at hused
    split at hused
    · exact nomatch hused
    · rename_i hne
      have hcount : l.linkingCount = b.ledger.linkingCount := by
        obtain ⟨_, rfl⟩ := Ledger.eq_of_releaseRow hl
        rfl
      obtain ⟨u, hu⟩ := h.rows t (hcount ▸ ht) hused
      rw [hflow] at hu
      rcases List.mem_cons.1 hu with hu | hu
      · exact absurd (Prod.mk.inj hu).2 hne
      · exact ⟨u, hu⟩
  coefficients t v hv := h.coefficients t v (Ledger.coefficientsAt_of_releaseRow hl t v ▸ hv)

end Exact

/-- As long as the master is not faulty, the tables go on to list everything in use. -/
theorem Step.exact (h : Step N permitted faulty b b') (hfaulty : ¬ faulty)
    (hs : Sound N permitted b) (hb : Exact b) : Exact b' := by
  cases h with
  | reoptimize settings => exact hb.of_sameModel (b.ledger.sameModel_apply settings) b.incumbent
  | init => exact ⟨hb.columns, hb.rows, hb.coefficients⟩
  | row name => exact hb.addRow _ name _
  | column _ _ _ _ _ _ hl =>
    exact hb.of_changes (changes_of_enterLeg hl).1 (fun _ _ hw _ => List.mem_append_left _ hw)
      (.inl ⟨_, List.mem_append_right _ (List.mem_singleton_self _)⟩)
  | withdraw _ hl hl' =>
    have hchanges := (changes_of_enterLeg hl).1.trans (Ledger.changes_of_releaseVariable hl')
    exact hb.of_changes hchanges (fun _ _ hw _ => hw)
      (.inr ⟨Ledger.usedVariable?_of_releaseVariable hl',
        Ledger.coefficientsAt_of_releaseVariable hl'⟩)
  | orphan hf => exact absurd hf hfaulty
  | submit _ _ _ hl => exact hb.of_sameModel (Ledger.sameModel_of_submit hl) _
  | releaseColumn _ hcolumns hl =>
    refine hb.of_changes (Ledger.changes_of_releaseVariable hl) (fun leg w hw hne => ?_)
      (.inr ⟨Ledger.usedVariable?_of_releaseVariable hl,
        Ledger.coefficientsAt_of_releaseVariable hl⟩)
    rw [hcolumns] at hw
    rcases List.mem_cons.1 hw with hw | hw
    · exact absurd (Prod.mk.inj hw).2 hne
    · exact hw
  | loseColumns _ hcolumns hor =>
    obtain ⟨e, he⟩ := hor.resolve_left hfaulty
    have hused := (hs.posted _ (hcolumns ▸ List.mem_cons_self)).isSome
    obtain ⟨l, hl⟩ := Ledger.exists_releaseVariable hused
    rw [hl] at he
    cases he
  | releaseRow _ _ hflow hl => exact hb.releaseRow hflow hl
  | loseRows _ _ hflow hor =>
    obtain ⟨e, he⟩ := hor.resolve_left hfaulty
    have hused := (hs.flow_row _ (hflow ▸ List.mem_cons_self)).2.2
    obtain ⟨l, hl⟩ := Ledger.exists_releaseRow hused
    rw [hl] at he
    cases he
  | exit => exact ⟨hb.columns, hb.rows, hb.coefficients⟩
  | reorder hflow hcolumns => exact hb.relist hflow.symm.subset hcolumns.symm.subset

theorem Steps.exact (h : Steps N permitted faulty b b') (hfaulty : ¬ faulty)
    (hs : Sound N permitted b) (hb : Exact b) : Exact b' := by
  induction h with
  | refl => exact hb
  | tail hsteps hstep ih => exact hstep.exact hfaulty (Steps.sound hsteps hs) ih

end TourPricing.Books
