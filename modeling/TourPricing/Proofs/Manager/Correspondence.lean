import TourPricing.Proofs.Manager.Run

namespace TourPricing

variable {M α : Type} [Scalar α]

/-- The tables of a manager correspond to a ledger. -/
structure Manager.Corresponds (m : Manager M α) (l : Ledger α) : Prop where
  columns_table : OneToOne m.columns
  columns_used : ∀ v, (∃ leg, (leg, v) ∈ m.columns) ↔ (l.usedVariable? v).isSome
  flow_table : OneToOne m.flow
  flow_stop : ∀ p ∈ m.flow, p.1.vertex ≠ m.expansion.network.source
  flow_used : ∀ r, (∃ s, (s, r) ∈ m.flow) ↔ l.linkingCount ≤ r.index ∧ (l.usedRow? r).isSome
  objective : ∀ p ∈ m.columns,
    (l.usedVariable? p.2).map (·.objective) = some (Scalar.ofNat p.1.travelTime)
  /-- One coefficient for each end of the leg that has a row, and one for the edge. -/
  coefficients : ∀ p ∈ m.columns, p.1.edge < l.linkingCount ∧ ∃ tail head,
    Books.FlowAt m.expansion.network m.flow p.1.tail tail ∧
    Books.FlowAt m.expansion.network m.flow p.1.head head ∧
    ∀ r, l.coefficientsAt r p.2 = (if tail = some r then [Scalar.ofNat 1] else []) ++
      (if head = some r then [-Scalar.ofNat 1] else []) ++
      (if r = ⟨p.1.edge⟩ then [Scalar.ofNat 1] else [])
  coefficients_used : ∀ r v, l.coefficientsAt r v ≠ [] → ∃ leg, (leg, v) ∈ m.columns

namespace Manager

theorem corresponds_of_books [HasLedger M α] {permitted : Leg → Prop} {m : Manager M α}
    (hs : m.books.Sound m.expansion.network permitted) (he : m.books.Exact)
    (hactive : m.phase = .active) : m.Corresponds (HasLedger.ledger m.master) where
  columns_table := hs.column_table
  columns_used v := ⟨fun ⟨_, h⟩ => (hs.posted _ h).isSome, he.columns v⟩
  flow_table := hs.flow_table
  flow_stop p hp := (hs.flow_row p hp).1
  flow_used r := ⟨fun ⟨_, h⟩ => (hs.flow_row _ h).2, fun h => he.rows r h.1 h.2⟩
  objective p hp := (hs.posted p hp).objective
  coefficients p hp := by
    obtain ⟨tail, head, htail, hhead, hall⟩ := (hs.posted p hp).coefficients
    refine ⟨(hs.posted p hp).edge_lt.trans_le (hs.edges hactive), tail, head, htail, hhead,
      fun r => ?_⟩
    rw [← Books.amounts_entries]
    exact hall r
  coefficients_used := he.coefficients

/-- In every active state that a run leads to, the tables correspond to the ledger of a master that
does not refuse to give things up. -/
theorem corresponds_of_run {n : Nat} {settings : LedgerSettings α} {script : MasterScript α}
    {expansion : Expansion} {pricer : Pricer α} {initialTour : List Nat} {relaxed : Bool}
    {m : Manager (ScriptedMaster α) α}
    (hscript : ∀ k, script.refuses .releaseVariable k = false ∧
      script.refuses .releaseRow k = false)
    (hrun : Run (fun _ => True) (onScript n settings script expansion pricer initialTour relaxed) m)
    (hactive : m.phase = .active) : m.Corresponds m.master.ledger := by
  have hfollows := hrun.follows (.of_departures fun _ _ => trivial)
  have hsound := sound_onScript n settings script expansion pricer initialTour relaxed
    fun _ => True
  have hkept : ¬ m.master.ReleaseRefused :=
    not_releaseRefused_of_run hrun (fun _ _ => trivial) hscript
  refine corresponds_of_books (?_ : m.books.Sound _ fun _ => True) ?_ hactive
  · rw [hfollows.expansion]
    exact Books.Steps.sound hfollows.steps hsound
  · exact Books.Steps.exact hfollows.steps hkept hsound
      (exact_onScript n settings script expansion pricer initialTour relaxed)

/-- A manager on the triangle whose second coefficient is refused. It fails to add a leg, and adds
the leg when it is called again. -/
def retried : Manager (ScriptedMaster Rat) Rat :=
  [.init, .materialize ⟨0, ⟨0, 0⟩, ⟨1, 1⟩⟩, .materialize ⟨0, ⟨0, 0⟩, ⟨1, 1⟩⟩].foldl after
    (onScript 5 {} ⟨fun sort n => sort == .addCoefficient && n == 2, fun _ => "", []⟩
      Network.triangle.expand (.path {}) [0, 1, 2] false)

theorem corresponds_retried :
    retried.columns = [(⟨0, ⟨0, 0⟩, ⟨1, 1⟩⟩, ⟨1⟩)] ∧ retried.Corresponds retried.master.ledger := by
  have hrun : Run (fun _ => True) _ retried := Run.of_operations (fun _ _ _ _ => trivial) _
  exact ⟨by decide +kernel,
    corresponds_of_run (fun _ => ⟨rfl, rfl⟩) hrun (by decide +kernel)⟩

end Manager

end TourPricing
