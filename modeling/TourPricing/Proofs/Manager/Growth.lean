import TourPricing.Proofs.Manager.LifeCycle
import TourPricing.Proofs.Master.Counts

namespace TourPricing

def Leg.stops (leg : Leg) : List Stop :=
  [leg.tail, leg.head]

/-- How many rows a leg touches: that of its edge, and those of its stops away from the source. -/
def Network.rowsOf (N : Network) (leg : Leg) : Nat :=
  leg.stops.countP (·.vertex != N.source) + 1

theorem Books.FlowAt.length_eq {N : Network} {flow : List (Stop × RowId)} {s : Stop}
    {row : Option RowId} (h : FlowAt N flow s row) :
    row.toList.length = [s].countP (·.vertex != N.source) := by
  cases row with
  | none =>
    have hs : s.vertex = N.source := h
    simp [hs]
  | some r => simp [h.1]

namespace Ledger

variable {α : Type} [Scalar α]

theorem run_enter {v : VariableId} {entries : List (RowId × α)} {l l' : Ledger α}
    (h : l.enter v entries = .ok l') :
    (entries.forM fun p => (Master.addCoefficient p.1 v p.2 : Ask (Ledger α) Unit)).run l =
      (.ok (), l') := by
  induction entries generalizing l with
  | nil =>
    obtain rfl := Except.ok.inj h
    rfl
  | cons entry rest ih =>
    obtain ⟨middle, hadd, hrest⟩ := enter_cons h
    have hfirst : (Master.addCoefficient entry.1 v entry.2 : Ask (Ledger α) Unit).run l =
        (.ok (), middle) := by
      change (addCoefficient entry.1 v entry.2).run l = _
      rw [addCoefficient_eq, Ask.run_attempt, hadd]
      rfl
    refine (run_bind _ _ l).trans ?_
    rw [hfirst]
    exact ih hrest

end Ledger

namespace Manager

section

variable {M α β : Type} {m m₁ m₂ : Manager M α}

theorem run_ask_of_ok {request : Ask M β} {b : β} {s : M}
    (h : request.run m.master = (.ok b, s)) :
    (ask request : Call M α β).run m = (.ok b, { m with master := s }) := by
  have hask : (ask request : Call M α β).run m = ((request.run m.master).1.mapError .master,
    { m with master := (request.run m.master).2 }) := rfl
  rw [hask, h]
  rfl

theorem forall₂_variableOf? (h : (m.columns.map (·.1)).Nodup) :
    List.Forall₂ (fun leg v => m.variableOf? leg = some v) (m.columns.map (·.1))
      (m.columns.map (·.2)) := by
  rw [List.forall₂_map_left_iff, List.forall₂_map_right_iff, List.forall₂_same]
  intro p hp
  obtain ⟨v, hv⟩ := Option.isSome_iff_exists.1
    (isSome_variableOf?_iff.2 (List.mem_map_of_mem hp))
  obtain ⟨before, after, heq, _⟩ := List.lookup_eq_some_iff.1 hv
  have hmem : (p.1, v) ∈ m.columns := heq ▸ List.mem_append_right _ List.mem_cons_self
  rw [hv, ← List.inj_on_of_nodup_map h hmem hp rfl]

variable [Scalar α] [Master M α]

theorem run_mapM_of_known (hactive : m.phase = .active) {legs : List Leg} {used : List VariableId}
    (h : List.Forall₂ (fun leg v => m.variableOf? leg = some v) legs used) :
    (legs.mapM materialize : Call M α _).run m = (.ok used, m) := by
  induction h with
  | nil => rfl
  | cons hv _ ih =>
    apply run_mapM_cons _ ih
    rw [run_materialize, if_pos hactive, hv]

end

section

variable {α : Type} [Scalar α] {start m m₁ m₂ : Manager (Ledger α) α} {touched : List Stop}
  {legs new : List Leg} {leg : Leg} {s : Stop}

/-- A manager that has added some legs, and the rows of some stops, since it took up its ledger. -/
structure Grown (start : Manager (Ledger α) α) (touched : List Stop) (legs : List Leg)
    (m : Manager (Ledger α) α) : Prop where
  keeps : Keeps start m
  incumbent : m.incumbent = start.incumbent
  record : Ledger.SameRecord start.master m.master
  linked : ∀ e < start.expansion.network.edgeCount, (m.master.usedRow? ⟨e⟩).isSome
  rows : ∀ p ∈ m.flow, (m.master.usedRow? p.2).isSome
  stops : (m.flow.map (·.1)).Nodup
  mem_stops : ∀ s, s ∈ m.flow.map (·.1) ↔
    s ∈ touched ∧ s.vertex ≠ start.expansion.network.source
  columns : m.columns.map (·.1) = legs
  costs : ∀ p ∈ m.columns,
    (m.master.usedVariable? p.2).map (·.objective) = some (Scalar.ofNat p.1.travelTime)
  counts : m.master.HasCounts legs.length (start.expansion.network.edgeCount + m.flow.length)
    (total (legs.map start.expansion.network.rowsOf))

theorem run_enterColumn {v : VariableId} {tail head : Option RowId} {link : RowId}
    {l l' : Ledger α} (h : l.enter v (Books.entries tail head link) = .ok l') :
    (enterColumn v tail head link : Ask (Ledger α) Unit).run l = (.ok (), l') := by
  rw [enterColumn_eq]
  exact Ledger.run_enter h

theorem run_flowRow (s : Stop) (m : Manager (Ledger α) α) :
    ∃ name, (flowRow s : Call (Ledger α) α RowId).run m = match m.flow.lookup s with
      | some r => (.ok r, m)
      | none => (.ok ⟨m.master.rows.size⟩, { m with
          master := (m.master.addRow name (Scalar.ofNat 0)).2
          flow := m.flow ++ [(s, ⟨m.master.rows.size⟩)] }) := by
  refine ⟨s!"flow_{s.vertex}_{s.time}", ?_⟩
  rw [flowRow, run_get_bind]
  cases m.flow.lookup s <;> rfl

theorem run_enterLeg {tail head : Option RowId} {link : RowId}
    (htail : (flowRow? leg.tail : Call (Ledger α) α _).run m = (.ok tail, m₁))
    (hhead : (flowRow? leg.head : Call (Ledger α) α _).run m₁ = (.ok head, m₂))
    (hlink : m₂.linking[leg.edge]? = some link) (hforward : leg.tail.time ≤ leg.head.time) :
    ∃ name domain, ∀ l,
      Books.enterLeg m₂.master leg name domain (Books.entries tail head link) = .ok l →
      (enterLeg leg : Call (Ledger α) α VariableId).run m =
        (.ok ⟨m₂.master.columns.size⟩, { m₂ with master := l }) := by
  refine ⟨s!"x_{leg.edge}_{leg.tail.time}", if m₂.relaxed then .continuous else .binary, ?_⟩
  intro l hl
  rw [enterLeg, run_bind, htail]
  dsimp only
  rw [run_bind, hhead]
  dsimp only
  rw [run_get_bind, hlink]
  dsimp only
  rw [run_get_bind, Leg.travelTime?_eq_some_iff.2 ⟨hforward, rfl⟩]
  generalize s!"x_{leg.edge}_{leg.tail.time}" = name at hl ⊢
  generalize (if m₂.relaxed then .continuous else .binary : Domain) = domain at hl ⊢
  have hvar : (ask (Master.addVariable name (Scalar.ofNat leg.travelTime : α) domain) :
      Call (Ledger α) α VariableId).run m₂ = (.ok ⟨m₂.master.columns.size⟩, { m₂ with
        master := (m₂.master.addVariable name (Scalar.ofNat leg.travelTime) domain).2 }) := rfl
  have hcolumn := run_enterColumn hl
  rw [run_bind, hvar]
  dsimp only
  rw [run_bind, run_tryCatch, run_ask_of_ok hcolumn]
  rfl

namespace Grown

section

variable (h : Grown start touched legs m)

include h

theorem of_touched
    (hs : s.vertex = start.expansion.network.source ∨ s ∈ m.flow.map (·.1)) :
    Grown start (touched ++ [s]) legs m where
  keeps := h.keeps
  incumbent := h.incumbent
  record := h.record
  linked := h.linked
  rows := h.rows
  stops := h.stops
  mem_stops t := by
    rw [h.mem_stops, List.mem_append, List.mem_singleton]
    constructor
    · exact fun ht => ⟨.inl ht.1, ht.2⟩
    · rintro ⟨ht | rfl, hne⟩
      · exact ⟨ht, hne⟩
      · exact (h.mem_stops t).1 (hs.resolve_left hne)
  columns := h.columns
  costs := h.costs
  counts := h.counts

theorem addRow (hs : s.vertex ≠ start.expansion.network.source) (hnew : s ∉ m.flow.map (·.1))
    (name : String) : Grown start (touched ++ [s]) legs { m with
      master := (m.master.addRow name (Scalar.ofNat 0)).2
      flow := m.flow ++ [(s, ⟨m.master.rows.size⟩)] } := by
  have hused (r : RowId) (hr : (m.master.usedRow? r).isSome) :
      ((m.master.addRow name (Scalar.ofNat 0)).2.usedRow? r).isSome := by
    rw [Ledger.usedRow?_addRow]
    split
    · rfl
    · exact hr
  constructor
  case keeps => exact h.keeps.trans ⟨rfl, rfl, rfl, rfl, rfl, rfl⟩
  case incumbent => exact h.incumbent
  case record => exact h.record.trans ⟨rfl, rfl⟩
  case linked => exact fun e he => hused _ (h.linked e he)
  case rows =>
    intro p hp
    rcases List.mem_append.1 hp with hp | hp
    · exact hused _ (h.rows p hp)
    · obtain rfl := List.mem_singleton.1 hp
      rw [Ledger.usedRow?_addRow, if_pos rfl]
      rfl
  case stops =>
    rw [List.map_append, List.map_singleton, ← List.concat_eq_append]
    exact h.stops.concat hnew
  case mem_stops =>
    intro t
    rw [List.map_append, List.mem_append, h.mem_stops, List.map_singleton, List.mem_append,
      List.mem_singleton]
    constructor
    · rintro (ht | rfl)
      · exact ⟨.inl ht.1, ht.2⟩
      · exact ⟨.inr rfl, hs⟩
    · rintro ⟨ht | rfl, hne⟩
      · exact .inl ⟨ht, hne⟩
      · exact .inr rfl
  case columns => exact h.columns
  case costs => exact h.costs
  case counts =>
    rw [List.length_append, List.length_singleton, ← Nat.add_assoc]
    exact h.counts.addRow name _

theorem run_flowRow? (s : Stop) :
    ∃ row m', (flowRow? s : Call (Ledger α) α (Option RowId)).run m = (.ok row, m') ∧
      Grown start (touched ++ [s]) legs m' ∧
      Books.FlowAt start.expansion.network m'.flow s row ∧ m.flow ⊆ m'.flow ∧
      m'.columns = m.columns := by
  have hrun : (flowRow? s : Call (Ledger α) α (Option RowId)).run m =
      (if s.vertex = m.expansion.network.source then pure none else some <$> flowRow s :
        Call (Ledger α) α (Option RowId)).run m := rfl
  rw [hrun, h.keeps.expansion]
  by_cases hs : s.vertex = start.expansion.network.source
  · rw [if_pos hs]
    exact ⟨none, m, rfl, h.of_touched (.inl hs), hs, List.Subset.refl _, rfl⟩
  · obtain ⟨name, hrow⟩ := run_flowRow s m
    rw [if_neg hs, run_map, hrow]
    cases hlookup : m.flow.lookup s with
    | some r =>
      obtain ⟨before, after, heq, _⟩ := List.lookup_eq_some_iff.1 hlookup
      have hmem : (s, r) ∈ m.flow := heq ▸ List.mem_append_right _ List.mem_cons_self
      exact ⟨some r, m, rfl, h.of_touched (.inr (List.mem_map_of_mem hmem)), ⟨hs, hmem⟩,
        List.Subset.refl _, rfl⟩
    | none =>
      have hnew : s ∉ m.flow.map (·.1) := by
        intro hmem
        obtain ⟨p, hp, rfl⟩ := List.mem_map.1 hmem
        exact bne_iff_ne.1 (List.lookup_eq_none_iff.1 hlookup p hp) rfl
      exact ⟨_, _, rfl, h.addRow hs hnew name,
        ⟨hs, List.mem_append_right _ (List.mem_singleton_self _)⟩, List.subset_append_left _ _,
        rfl⟩

section

variable {tail head : Option RowId} {name : String} {domain : Domain} {l : Ledger α}
  (htail : Books.FlowAt start.expansion.network m.flow leg.tail tail)
  (hhead : Books.FlowAt start.expansion.network m.flow leg.head head)

include htail hhead

theorem exists_enterLeg (hedge : leg.edge < start.expansion.network.edgeCount) (name : String)
    (domain : Domain) : ∃ l, Books.enterLeg m.master leg name domain
      (Books.entries tail head ⟨leg.edge⟩) = .ok l := by
  apply Ledger.exists_enter
  · rw [Ledger.usedVariable?_addVariable]
    rfl
  · have hflow {s : Stop} {row : Option RowId}
        (hrow : Books.FlowAt start.expansion.network m.flow s row) :
        ∀ r ∈ row, (m.master.usedRow? r).isSome := by
      rintro r rfl
      exact h.rows _ hrow.2
    intro entry hentry
    simp only [Books.entries, List.mem_append, List.mem_map, Option.mem_toList,
      List.mem_singleton] at hentry
    rcases hentry with (⟨r, hr, rfl⟩ | ⟨r, hr, rfl⟩) | rfl
    · exact hflow htail r hr
    · exact hflow hhead r hr
    · exact h.linked _ hedge

theorem addColumn
    (hl : Books.enterLeg m.master leg name domain (Books.entries tail head ⟨leg.edge⟩) = .ok l) :
    Grown start touched (legs ++ [leg]) { m with
      master := l, columns := m.columns ++ [(leg, ⟨m.master.columns.size⟩)] } := by
  obtain ⟨hchanges, hcost⟩ := Books.changes_of_enterLeg hl
  constructor
  case keeps => exact h.keeps.trans ⟨rfl, rfl, rfl, rfl, rfl, rfl⟩
  case incumbent => exact h.incumbent
  case record =>
    have hadd : Ledger.SameRecord m.master
        (m.master.addVariable name (Scalar.ofNat leg.travelTime) domain).2 := ⟨rfl, rfl⟩
    exact h.record.trans (hadd.trans (.of_enter hl))
  case linked =>
    intro e he
    rw [hchanges.rows]
    exact h.linked e he
  case rows =>
    intro p hp
    rw [hchanges.rows]
    exact h.rows p hp
  case stops => exact h.stops
  case mem_stops => exact h.mem_stops
  case columns => rw [List.map_append, h.columns, List.map_singleton]
  case costs =>
    intro p hp
    rcases List.mem_append.1 hp with hp | hp
    · have hold := h.costs p hp
      have hused : (m.master.usedVariable? p.2).isSome := by
        rw [← Option.isSome_map, hold]
        rfl
      have hne : p.2 ≠ ⟨m.master.columns.size⟩ := by
        intro he
        have hlt := Ledger.lt_of_usedVariable? hused
        rw [he] at hlt
        exact Nat.lt_irrefl _ hlt
      rw [hchanges.used _ hne, hold]
    · obtain rfl := List.mem_singleton.1 hp
      exact hcost
  case counts =>
    have hlength : (Books.entries tail head ⟨leg.edge⟩ : List (RowId × α)).length =
        start.expansion.network.rowsOf leg := by
      rw [Books.entries, List.length_append, List.length_append, List.length_map, List.length_map,
        htail.length_eq, hhead.length_eq, ← List.countP_append]
      rfl
    have hcounts := (h.counts.addVariable name (Scalar.ofNat leg.travelTime) domain).of_enter hl
    rw [hlength] at hcounts
    rw [List.length_append, List.map_append, total_append]
    exact hcounts

end

variable (hactive : start.phase = .active)
  (hlinking : start.linking = (List.range start.expansion.network.edgeCount).map .mk)

include hactive hlinking

theorem run_materialize (hleg : start.expansion.network.IsDeparture leg) (hnew : leg ∉ legs) :
    ∃ v m', (materialize leg : Call (Ledger α) α VariableId).run m = (.ok v, m') ∧
      m'.columns = m.columns ++ [(leg, v)] ∧
      Grown start (touched ++ leg.stops) (legs ++ [leg]) m' := by
  obtain ⟨tail, m₁, htail, h₁, hat₁, _, hcolumns₁⟩ := h.run_flowRow? leg.tail
  obtain ⟨head, m₂, hhead, h₂, hat₂, hsub, hcolumns₂⟩ := h₁.run_flowRow? leg.head
  have hlink : m₂.linking[leg.edge]? = some ⟨leg.edge⟩ := by
    rw [h₂.keeps.linking, hlinking, List.getElem?_map, List.getElem?_range hleg.edge_lt]
    rfl
  obtain ⟨name, domain, henter⟩ := Manager.run_enterLeg htail hhead hlink hleg.time_le
  obtain ⟨l, hl⟩ := h₂.exists_enterLeg (hat₁.mono hsub) hat₂ hleg.edge_lt name domain
  have hnone : m.variableOf? leg = none := by
    rw [variableOf?_eq_none_iff, h.columns]
    exact hnew
  refine ⟨⟨m₂.master.columns.size⟩, { m₂ with
    master := l, columns := m₂.columns ++ [(leg, ⟨m₂.master.columns.size⟩)] }, ?_, ?_, ?_⟩
  · rw [Manager.run_materialize, if_pos (h.keeps.phase.trans hactive), hnone, henter l hl]
  · rw [hcolumns₂, hcolumns₁]
  · have hgrown := h₂.addColumn (hat₁.mono hsub) hat₂ hl
    rw [List.append_assoc] at hgrown
    exact hgrown

theorem run_mapM (hdep : ∀ leg ∈ new, start.expansion.network.IsDeparture leg)
    (hnew : (legs ++ new).Nodup) :
    ∃ used m', (new.mapM materialize : Call (Ledger α) α _).run m = (.ok used, m') ∧
      m'.columns = m.columns ++ new.zip used ∧ used.length = new.length ∧
      Grown start (touched ++ new.flatMap Leg.stops) (legs ++ new) m' := by
  induction new generalizing m touched legs with
  | nil =>
    refine ⟨[], m, rfl, (List.append_nil _).symm, rfl, ?_⟩
    rw [List.flatMap_nil, List.append_nil, List.append_nil]
    exact h
  | cons leg rest ih =>
    obtain ⟨hleg, hdep⟩ := List.forall_mem_cons.1 hdep
    have hfresh : leg ∉ legs := fun hmem =>
      (List.nodup_append.1 hnew).2.2 leg hmem leg List.mem_cons_self rfl
    obtain ⟨v, m₁, hfirst, hcolumns₁, h₁⟩ := h.run_materialize hactive hlinking hleg hfresh
    rw [List.append_cons] at hnew
    obtain ⟨used, m₂, hrest, hcolumns₂, hlength, h₂⟩ := ih h₁ hdep hnew
    refine ⟨v :: used, m₂, run_mapM_cons hfirst hrest, ?_, congrArg (· + 1) hlength, ?_⟩
    · rw [hcolumns₂, hcolumns₁, List.append_assoc]
      rfl
    · rw [List.append_assoc, List.append_assoc] at h₂
      exact h₂

end

/-- Later calls can start from a manager whose ledger has the same model. -/
theorem rebase (h : Grown start touched legs m) {l : Ledger α}
    (hl : Ledger.SameModel m.master l) (incumbent : Option α) (seeded : Bool) :
    Grown { m with master := l, incumbent, seeded } touched legs
      { m with master := l, incumbent, seeded } := by
  have hexpansion := h.keeps.expansion
  constructor
  case keeps => exact .refl _
  case incumbent => rfl
  case record => exact .refl _
  case linked =>
    intro e he
    rw [hexpansion] at he
    rw [hl.usedRow?]
    exact h.linked e he
  case rows =>
    intro p hp
    rw [hl.usedRow?]
    exact h.rows p hp
  case stops => exact h.stops
  case mem_stops =>
    rw [hexpansion]
    exact h.mem_stops
  case columns => exact h.columns
  case costs =>
    intro p hp
    rw [hl.usedVariable?]
    exact h.costs p hp
  case counts =>
    rw [hexpansion]
    exact h.counts.of_sameModel hl

theorem value_eq {limit : Nat} [CountsUpTo α limit] (h : Grown start touched legs m)
    (hle : total (legs.map (·.travelTime)) ≤ limit) :
    m.master.value (m.columns.map fun p => (p.2, Scalar.ofNat 1)) =
      .ok (Scalar.ofNat (total (legs.map (·.travelTime)))) := by
  have hcosts : total ((m.columns.map fun p => (p.2, p.1.travelTime)).map (·.2)) =
      total (legs.map (·.travelTime)) := by
    rw [← h.columns, List.map_map, List.map_map]
    rfl
  have hused : ∀ q ∈ m.columns.map fun p => (p.2, p.1.travelTime),
      (m.master.usedVariable? q.1).map (·.objective) = some (Scalar.ofNat q.2) := by
    intro q hq
    obtain ⟨p, hp, rfl⟩ := List.mem_map.1 hq
    exact h.costs p hp
  rw [← hcosts] at hle ⊢
  have hvalue := Ledger.value_eq_total hused hle
  rwa [List.map_map] at hvalue

end Grown

theorem run_offerRoute {r : Route} {used : List VariableId} {accepted : Bool} {l : Ledger α}
    (htour : r.isTour? m.expansion.network = some true)
    (htime : r.travelTime? = some r.travelTime)
    (hsubmit : m.master.withSubmission (used.map fun v => (v, Scalar.ofNat 1)) =
      .ok (accepted, l)) :
    (offerRoute r used : Call (Ledger α) α Bool).run m = (.ok accepted, { m with
      master := l
      incumbent := if accepted = true ∧ m.incumbent.all ((Scalar.ofNat r.travelTime : α) < ·) then
        some (Scalar.ofNat r.travelTime) else m.incumbent }) := by
  have hask : (ask (Master.submit (used.map fun v => (v, Scalar.ofNat 1))) :
      Call (Ledger α) α Bool).run m = (.ok accepted, { m with master := l }) := by
    apply run_ask_of_ok
    change (Ledger.submit _).run m.master = _
    rw [Ledger.submit_eq, Ask.run_attempt, hsubmit]
  rw [offerRoute, run_get_bind, htour]
  dsimp only
  rw [run_bind, hask]
  dsimp only
  cases accepted with
  | false => rfl
  | true =>
    rw [if_pos rfl, htime]
    change (Except.ok true, if m.incumbent.all ((Scalar.ofNat r.travelTime : α) < ·) then
      { m with master := l, incumbent := some (Scalar.ofNat r.travelTime) }
      else { m with master := l }) = _
    by_cases hbetter : m.incumbent.all ((Scalar.ofNat r.travelTime : α) < ·) = true
    · rw [if_pos hbetter, if_pos ⟨rfl, hbetter⟩]
    · rw [if_neg hbetter, if_neg fun h => hbetter h.2]

end

end Manager

end TourPricing
