import Mathlib.Data.List.Forall2
import Mathlib.Data.List.Nodup
import Mathlib.Data.List.Perm.Subperm
import Mathlib.Logic.Relation
import TourPricing.Manager.Basic
import TourPricing.Proofs.Clock
import TourPricing.Proofs.Master.Ledger

namespace TourPricing

/-- No key stands twice in a table, and no value. -/
structure OneToOne {κ ι : Type} (table : List (κ × ι)) : Prop where
  keys : (table.map (·.1)).Nodup
  values : (table.map (·.2)).Nodup

namespace OneToOne

variable {κ ι : Type} {table other : List (κ × ι)}

theorem nil : OneToOne ([] : List (κ × ι)) :=
  ⟨.nil, .nil⟩

theorem subperm (h : OneToOne table) (hs : other.Subperm table) : OneToOne other := by
  obtain ⟨l, hperm, hsub⟩ := hs
  exact ⟨(hperm.map _).nodup_iff.1 (h.keys.sublist (hsub.map _)),
    (hperm.map _).nodup_iff.1 (h.values.sublist (hsub.map _))⟩

theorem concat [BEq κ] [LawfulBEq κ] {k : κ} {i : ι} (h : OneToOne table)
    (hk : table.lookup k = none) (hi : ∀ p ∈ table, p.2 ≠ i) : OneToOne (table ++ [(k, i)]) := by
  constructor
  · rw [List.map_append, List.nodup_append]
    refine ⟨h.keys, List.nodup_singleton _, fun a ha b hb => ?_⟩
    obtain ⟨p, hp, rfl⟩ := List.mem_map.1 ha
    obtain rfl := List.mem_singleton.1 hb
    exact Ne.symm (bne_iff_ne.1 (List.lookup_eq_none_iff.1 hk p hp))
  · rw [List.map_append, List.nodup_append]
    refine ⟨h.values, List.nodup_singleton _, fun a ha b hb => ?_⟩
    obtain ⟨p, hp, rfl⟩ := List.mem_map.1 ha
    obtain rfl := List.mem_singleton.1 hb
    exact hi p hp

theorem not_mem_rest {k : κ} {i : ι} (h : OneToOne ((k, i) :: table)) : ∀ p ∈ table, p.2 ≠ i :=
  fun _ hp he => (List.nodup_cons.1 h.values).1 (List.mem_map.2 ⟨_, hp, he⟩)

theorem value_unique {k : κ} {i j : ι} (h : OneToOne table) (hi : (k, i) ∈ table)
    (hj : (k, j) ∈ table) : i = j :=
  (Prod.mk.inj (List.inj_on_of_nodup_map h.keys hi hj rfl)).2

theorem key_unique {k m : κ} {i : ι} (h : OneToOne table) (hk : (k, i) ∈ table)
    (hm : (m, i) ∈ table) : k = m :=
  (Prod.mk.inj (List.inj_on_of_nodup_map h.values hk hm rfl)).1

end OneToOne

structure Books (α : Type) where
  ledger : Ledger α
  phase : Phase
  linking : List RowId
  flow : List (Stop × RowId)
  columns : List (Leg × VariableId)
  incumbent : Option α

namespace Books

variable {α : Type} [Scalar α]

/-- The row of a stop, which has none at the source. -/
def FlowAt (N : Network) (flow : List (Stop × RowId)) (s : Stop) : Option RowId → Prop
  | none => s.vertex = N.source
  | some r => s.vertex ≠ N.source ∧ (s, r) ∈ flow

def entries (tail head : Option RowId) (link : RowId) : List (RowId × α) :=
  tail.toList.map (·, Scalar.ofNat 1) ++ head.toList.map (·, -Scalar.ofNat 1) ++
    [(link, Scalar.ofNat 1)]

def enterLeg (l : Ledger α) (leg : Leg) (name : String) (domain : Domain)
    (entries : List (RowId × α)) : Except MasterError (Ledger α) :=
  (l.addVariable name (Scalar.ofNat leg.travelTime) domain).2.enter ⟨l.columns.size⟩ entries

/-- The best value once a route was accepted as well. A route that takes no time does not count. -/
def improved (incumbent : Option α) (r : Route) : Option α :=
  match r.travelTime? with
  | some time =>
    if incumbent.all ((Scalar.ofNat time : α) < ·) then some (Scalar.ofNat time) else incumbent
  | none => incumbent

theorem improved_of_travelTime? (incumbent : Option α) {r : Route} {time : Nat}
    (h : r.travelTime? = some time) : improved incumbent r =
      if incumbent.all ((Scalar.ofNat time : α) < ·) then some (Scalar.ofNat time)
      else incumbent := by
  rw [improved, h]

/-- What a call does to the books, bit by bit. Legs that get a variable are `permitted`; things are
lost only if the master is `faulty`, or if it does not know what it should give up. The order of the
tables is not fixed. -/
inductive Step (N : Network) (permitted : Leg → Prop) (faulty : Prop) : Books α → Books α → Prop
  | reoptimize {b : Books α} (settings : LedgerSettings α) :
    Step N permitted faulty b { b with ledger := b.ledger.apply settings }
  | init {b : Books α} : b.phase = .uninitialized → N.edgeCount ≤ b.ledger.linkingCount →
    Step N permitted faulty b
      { b with linking := (List.range N.edgeCount).map .mk, phase := .active }
  | row {b : Books α} {s : Stop} (name : String) : b.phase = .active → s.vertex ≠ N.source →
    b.flow.lookup s = none →
    Step N permitted faulty b
      { b with
        ledger := (b.ledger.addRow name (Scalar.ofNat 0)).2
        flow := b.flow ++ [(s, ⟨b.ledger.rows.size⟩)] }
  | column {b : Books α} {leg : Leg} {name : String} {domain : Domain} {tail head : Option RowId}
    {link : RowId} {l : Ledger α} : b.phase = .active → permitted leg →
    b.columns.lookup leg = none → FlowAt N b.flow leg.tail tail →
    FlowAt N b.flow leg.head head → b.linking[leg.edge]? = some link →
    enterLeg b.ledger leg name domain (entries tail head link) = .ok l →
    Step N permitted faulty b
      { b with ledger := l, columns := b.columns ++ [(leg, ⟨b.ledger.columns.size⟩)] }
  | withdraw {b : Books α} {leg : Leg} {name : String} {domain : Domain}
    {entries : List (RowId × α)} {l l' : Ledger α} : b.phase = .active →
    enterLeg b.ledger leg name domain entries = .ok l →
    l.withoutVariable ⟨b.ledger.columns.size⟩ = .ok l' →
    Step N permitted faulty b { b with ledger := l' }
  | orphan {b : Books α} {leg : Leg} {name : String} {domain : Domain}
    {entries : List (RowId × α)} {l : Ledger α} : faulty → b.phase = .active →
    enterLeg b.ledger leg name domain entries = .ok l →
    Step N permitted faulty b { b with ledger := l }
  | submit {b : Books α} {r : Route} {used : List VariableId} {accepted : Bool} {l : Ledger α}
    {incumbent : Option α} : b.phase = .active → r.isTour? N = some true →
    List.Forall₂ (fun leg v => (leg, v) ∈ b.columns) r.legs used →
    b.ledger.withSubmission (used.map fun v => (v, Scalar.ofNat 1)) = .ok (accepted, l) →
    incumbent = (if accepted = true then improved b.incumbent r else b.incumbent) →
    Step N permitted faulty b { b with ledger := l, incumbent }
  | releaseColumn {b : Books α} {leg : Leg} {v : VariableId} {rest : List (Leg × VariableId)}
    {l : Ledger α} : b.phase = .active → b.columns = (leg, v) :: rest →
    b.ledger.withoutVariable v = .ok l →
    Step N permitted faulty b { b with ledger := l, columns := rest }
  | loseColumns {b : Books α} {leg : Leg} {v : VariableId} {rest : List (Leg × VariableId)} :
    b.phase = .active → b.columns = (leg, v) :: rest →
    (faulty ∨ ∃ e, b.ledger.withoutVariable v = .error e) →
    Step N permitted faulty b { b with columns := [] }
  | releaseRow {b : Books α} {s : Stop} {r : RowId} {rest : List (Stop × RowId)} {l : Ledger α} :
    b.phase = .active → b.columns = [] → b.flow = (s, r) :: rest →
    b.ledger.withoutRow r = .ok l →
    Step N permitted faulty b { b with ledger := l, flow := rest }
  | loseRows {b : Books α} {s : Stop} {r : RowId} {rest : List (Stop × RowId)} :
    b.phase = .active → b.columns = [] → b.flow = (s, r) :: rest →
    (faulty ∨ ∃ e, b.ledger.withoutRow r = .error e) →
    Step N permitted faulty b { b with flow := [] }
  | exit {b : Books α} : b.phase = .active → b.columns = [] → b.flow = [] →
    Step N permitted faulty b { b with linking := [], phase := .tornDown }
  | reorder {b : Books α} {flow : List (Stop × RowId)} {columns : List (Leg × VariableId)} :
    flow.Perm b.flow → columns.Perm b.columns → Step N permitted faulty b { b with flow, columns }

abbrev Steps (N : Network) (permitted : Leg → Prop) (faulty : Prop) :
    Books α → Books α → Prop :=
  Relation.ReflTransGen (Step N permitted faulty)

variable {N : Network} {permitted : Leg → Prop} {faulty : Prop} {b b' : Books α} {l l' : Ledger α}
  {flow flow' : List (Stop × RowId)} {leg : Leg} {v : VariableId} {name : String} {domain : Domain}
  {coefficients : List (RowId × α)}

theorem amounts_entries (tail head : Option RowId) (link r : RowId) :
    Ledger.amounts (entries tail head link : List (RowId × α)) r =
      (if tail = some r then [Scalar.ofNat 1] else []) ++
        (if head = some r then [-Scalar.ofNat 1] else []) ++
        (if r = link then [Scalar.ofNat 1] else []) := by
  have hrow (row : Option RowId) (a : α) : Ledger.amounts (row.toList.map (·, a)) r =
      if row = some r then [a] else [] := by
    cases row with
    | none => rfl
    | some t => by_cases h : t = r <;> simp [Ledger.amounts, h]
  have hlink : Ledger.amounts [(link, (Scalar.ofNat 1 : α))] r =
      if r = link then [Scalar.ofNat 1] else [] := by
    by_cases h : r = link <;> simp [Ledger.amounts, h, eq_comm]
  rw [← hrow, ← hrow, ← hlink, entries, Ledger.amounts, List.filter_append, List.filter_append,
    List.map_append, List.map_append]
  rfl

theorem Step.mono {faulty' : Prop} (h : Step N permitted faulty b b') (hf : faulty → faulty') :
    Step N permitted faulty' b b' := by
  cases h with
  | reoptimize settings => exact .reoptimize settings
  | init hp hle => exact .init hp hle
  | row name hp hs hnew => exact .row name hp hs hnew
  | column hp hleg hnew ht hh hlink hl => exact .column hp hleg hnew ht hh hlink hl
  | withdraw hp hl hl' => exact .withdraw hp hl hl'
  | orphan h hp hl => exact .orphan (hf h) hp hl
  | submit hp hr hused hl hbest => exact .submit hp hr hused hl hbest
  | releaseColumn hp hc hl => exact .releaseColumn hp hc hl
  | loseColumns hp hc hor => exact .loseColumns hp hc (hor.imp_left hf)
  | releaseRow hp hc hr hl => exact .releaseRow hp hc hr hl
  | loseRows hp hc hr hor => exact .loseRows hp hc hr (hor.imp_left hf)
  | exit hp hc hr => exact .exit hp hc hr
  | reorder hflow hcolumns => exact .reorder hflow hcolumns

theorem Steps.mono {faulty' : Prop} (h : Steps N permitted faulty b b') (hf : faulty → faulty') :
    Steps N permitted faulty' b b' :=
  Relation.ReflTransGen.mono (fun _ _ hstep => hstep.mono hf) _ _ h

theorem FlowAt.mono {s : Stop} {row : Option RowId} (h : FlowAt N flow s row)
    (hsub : flow ⊆ flow') : FlowAt N flow' s row := by
  cases row with
  | none => exact h
  | some r => exact ⟨h.1, hsub h.2⟩

theorem changes_of_enterLeg (h : enterLeg l leg name domain coefficients = .ok l') :
    Ledger.ChangesOnly ⟨l.columns.size⟩ l l' ∧
      (l'.usedVariable? ⟨l.columns.size⟩).map (·.objective) =
        some (Scalar.ofNat leg.travelTime) := by
  have hnew := l.addVariable_changes name (Scalar.ofNat leg.travelTime) domain
  obtain ⟨hchanges, hused⟩ := Ledger.changes_of_enter hnew.known h
  rw [hused, Ledger.usedVariable?_addVariable]
  exact ⟨hnew.trans hchanges, rfl⟩

theorem coefficientsAt_of_enterLeg (h : enterLeg l leg name domain coefficients = .ok l')
    (hfresh : ∀ r, l.coefficientsAt r ⟨l.columns.size⟩ = []) (r : RowId) :
    l'.coefficientsAt r ⟨l.columns.size⟩ = Ledger.amounts coefficients r := by
  rw [Ledger.coefficientsAt_of_enter h]
  exact congrArg (· ++ _) (hfresh r)

theorem Step.linkingCount_eq (h : Step N permitted faulty b b') :
    b'.ledger.linkingCount = b.ledger.linkingCount := by
  cases h with
  | column _ _ _ _ _ _ hl | orphan _ _ hl => exact (changes_of_enterLeg hl).1.linkingCount
  | withdraw _ hl hl' =>
    exact ((changes_of_enterLeg hl).1.trans (Ledger.changes_of_releaseVariable hl')).linkingCount
  | submit _ _ _ hl => exact (Ledger.sameModel_of_submit hl).linkingCount
  | releaseColumn _ _ hl => exact (Ledger.changes_of_releaseVariable hl).linkingCount
  | releaseRow _ _ _ hl =>
    obtain ⟨_, rfl⟩ := Ledger.eq_of_releaseRow hl
    rfl
  | reoptimize | init | row | loseColumns | loseRows | exit | reorder => rfl

theorem Steps.linkingCount_eq (h : Steps N permitted faulty b b') :
    b'.ledger.linkingCount = b.ledger.linkingCount := by
  induction h with
  | refl => rfl
  | tail _ hstep ih => exact hstep.linkingCount_eq.trans ih

theorem Steps.of_tornDown (h : Steps N permitted faulty b b') (hb : b.phase = .tornDown) :
    b'.phase = .tornDown ∧ Ledger.SameModel b.ledger b'.ledger := by
  induction h with
  | refl => exact ⟨hb, rfl, rfl, rfl⟩
  | tail _ hstep ih =>
    obtain ⟨hphase, hmodel⟩ := ih
    cases hstep with
    | reoptimize settings => exact ⟨hphase, hmodel.columns, hmodel.rows, hmodel.linkingCount⟩
    | reorder => exact ⟨hphase, hmodel⟩
    | init hp | row _ hp | column hp | withdraw hp | orphan _ hp | submit hp | releaseColumn hp
    | loseColumns hp | releaseRow hp | loseRows hp | exit hp =>
      rw [hphase] at hp
      cases hp

end Books

end TourPricing
