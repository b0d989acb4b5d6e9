import TourPricing.Proofs.Manager.Correspondence

namespace TourPricing

theorem eq_ok_of_isOk {ε : Type} {x : Except ε Unit} (h : x.isOk = true) : x = .ok () := by
  cases x with
  | error e => cases h
  | ok u => rfl

variable {α : Type} [Scalar α]

namespace Manager

theorem phase_of_exit {m : Manager (ScriptedMaster α) α} (h : (exit.run m).1 = .ok ()) :
    (m.after .exit).phase = .tornDown := by
  have hspec := triple_iff.1 (exit_spec (fun _ => True) m) m rfl
  rw [after]
  change ((exit.run m).2).phase = .tornDown
  rcases hrun : exit.run m with ⟨_ | _, t⟩
  · rw [hrun] at h
    cases h
  · rw [hrun] at hspec
    exact hspec.2

/-- Once an exit succeeds and no request to give something up was refused before, nothing is in use
any more besides the linking rows, whatever else was refused and whatever is called later on. -/
theorem released_of_exit {n : Nat} {settings : LedgerSettings α} {script : MasterScript α}
    {expansion : Expansion} {pricer : Pricer α} {initialTour : List Nat} {relaxed : Bool}
    {m m' : Manager (ScriptedMaster α) α}
    (hrun : Run (fun _ => True) (onScript n settings script expansion pricer initialTour relaxed) m)
    (hexit : (exit.run m).1 = .ok ()) (hkept : ¬ (m.after .exit).master.ReleaseRefused)
    (hlater : Run (fun _ => True) (m.after .exit) m') :
    (∀ v, m'.master.ledger.usedVariable? v = none) ∧
      ∀ r : RowId, n ≤ r.index → m'.master.ledger.usedRow? r = none := by
  have hrun' : Run (fun _ => True)
      (onScript n settings script expansion pricer initialTour relaxed) (m.after .exit) :=
    hrun.call .exit nofun
  have hfollows := hrun'.follows (.of_departures fun _ _ => trivial)
  have hstart := sound_onScript n settings script expansion pricer initialTour relaxed
    fun _ => True
  have hsound := Books.Steps.sound hfollows.steps hstart
  have hexact := Books.Steps.exact hfollows.steps hkept hstart
    (exact_onScript n settings script expansion pricer initialTour relaxed)
  have hphase := phase_of_exit hexit
  obtain ⟨hflow, hcolumns⟩ := hsound.idle (hphase.trans_ne nofun)
  have hrest := hlater.follows (.of_departures fun _ _ => trivial)
  have hsame := (Books.Steps.of_tornDown hrest.steps hphase).2
  constructor
  · intro v
    refine (hsame.usedVariable? v).trans (Option.not_isSome_iff_eq_none.1 fun hv => ?_)
    obtain ⟨leg, hleg⟩ := hexact.columns v hv
    rw [hcolumns] at hleg
    exact nomatch hleg
  · intro r hr
    refine (hsame.usedRow? r).trans (Option.not_isSome_iff_eq_none.1 fun hused => ?_)
    have hcount : (m.after .exit).books.ledger.linkingCount = n :=
      Books.Steps.linkingCount_eq hfollows.steps
    obtain ⟨s, hs⟩ := hexact.rows r (hcount.trans_le hr) hused
    rw [hflow] at hs
    exact nomatch hs

theorem released_of_exit_retried : (exit.run retried).1 = .ok () ∧
    (∀ v, (retried.after .exit).master.ledger.usedVariable? v = none) ∧
      ∀ r : RowId, 5 ≤ r.index → (retried.after .exit).master.ledger.usedRow? r = none := by
  have hrun : Run (fun _ => True) _ retried := Run.of_operations (fun _ _ _ _ => trivial) _
  have hexit : (exit.run retried).1 = .ok () := eq_ok_of_isOk (by decide +kernel)
  have hkept := not_releaseRefused_of_run (hrun.call .exit nofun)
    (fun _ _ => trivial) fun _ => ⟨rfl, rfl⟩
  exact ⟨hexit, released_of_exit hrun hexit hkept .refl⟩

def refused : Manager (ScriptedMaster Rat) Rat :=
  [.init, .materialize ⟨0, ⟨0, 0⟩, ⟨1, 1⟩⟩, .exit].foldl after
    (onScript 5 {} ⟨fun sort n => sort == .releaseVariable && n == 1, fun _ => "", []⟩
      Network.triangle.expand (.path {}) [0, 1, 2] false)

/-- The manager may exit again, and still the variable is in use. -/
theorem used_of_exit_refused : (exit.run refused).1 = .ok () ∧
    ((refused.after .exit).master.ledger.usedVariable? ⟨0⟩).isSome :=
  ⟨eq_ok_of_isOk (by decide +kernel), by decide +kernel⟩

end Manager

end TourPricing
