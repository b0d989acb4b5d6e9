import TourPricing.ColumnGeneration.Basic
import TourPricing.Proofs.Lists
import TourPricing.Proofs.Manager.Frame

namespace TourPricing.ColumnGeneration

open Manager

/-- A round: what the master came to, the objective that was read, and how many variables were
added. -/
structure RoundRecord (α : Type) where
  status : LpStatus
  objective : Option α
  added : Nat

variable {M α : Type} [Scalar α] [Master M α] {C : ColumnGeneration α} {report report' : Report α}
  {r : RoundRecord α} {log : List (RoundRecord α)} {m m' m'' : Manager M α}

/-- A round that comes to its end. -/
inductive Played (m : Manager M α) : RoundRecord α → Manager M α → Prop
  | infeasible {t m' : Manager M α} {outcome : PricingOutcome α} :
    (reoptimize : Call M α LpStatus).run m = (.ok .infeasible, t) →
    (farkasPricing : Call M α (PricingOutcome α)).run t = (.ok outcome, m') →
    Played m ⟨.infeasible, none, m'.variableCount - m.variableCount⟩ m'
  | optimal {t u m' : Manager M α} {z : α} {outcome : PricingOutcome α} :
    (reoptimize : Call M α LpStatus).run m = (.ok .optimal, t) →
    (ask Master.objective : Call M α α).run t = (.ok z, u) →
    (reducedCostPricing : Call M α (PricingOutcome α)).run u = (.ok outcome, m') →
    Played m ⟨.optimal, some z, m'.variableCount - m.variableCount⟩ m'

inductive Rounds : Manager M α → List (RoundRecord α) → Manager M α → Prop
  | nil (m : Manager M α) : Rounds m [] m
  | cons {r : RoundRecord α} {log : List (RoundRecord α)} {m m' m'' : Manager M α} :
    Played m r m' → Rounds m' log m'' → Rounds m (r :: log) m''

/-- A round only adds, up to the flag for seeding and the best bound. The best bound does not change
while the master is infeasible. -/
theorem Played.edits (h : Played m r m') (permitted : Leg → Prop)
    (htour : ∀ route, m.expansion.trace m.initialTour = .ok route →
      ∀ leg ∈ route.legs, permitted leg)
    (hfinds : m.FindsPermitted permitted) :
    ∃ u seeded bestBound, Edits (fun _ _ => True) permitted m u ∧
      m' = { u with seeded, bestBound } ∧ (r.status = .infeasible → bestBound = m.bestBound) := by
  cases h with
  | infeasible hsolve hprice =>
    obtain ⟨s, rfl⟩ := eq_of_run_ask hsolve
    have hstart : Edits (fun _ _ => True) permitted m { m with master := s } :=
      .single (.master trivial)
    obtain ⟨u, seeded, hedits, _, hrun⟩ := edits_farkasPricing (R := fun _ _ => True)
      (m := { m with master := s }) (edits_addTour htour) hfinds
    rw [hprice] at hrun
    exact ⟨u, seeded, u.bestBound, hstart.trans hedits, hrun, fun _ => hedits.keeps.bestBound⟩
  | optimal hsolve hread hprice =>
    obtain ⟨s, rfl⟩ := eq_of_run_ask hsolve
    obtain ⟨s', rfl⟩ := eq_of_run_ask hread
    have hstart : Edits (fun _ _ => True) permitted m { m with master := s' } :=
      .single (.master trivial)
    obtain ⟨u, bestBound, hedits, hrun⟩ := edits_reducedCostPricing (R := fun _ _ => True)
      (m := { m with master := s' }) hfinds
    rw [hprice] at hrun
    exact ⟨u, u.seeded, bestBound, hstart.trans hedits, hrun, nofun⟩

theorem Played.bestBound_eq (h : Played m r m') (hr : r.status = .infeasible) :
    m'.bestBound = m.bestBound := by
  obtain ⟨u, _, _, _, rfl, hbound⟩ := h.edits (fun _ => True) (fun _ _ _ _ => trivial)
    (findsPermitted_of_forall (fun _ => trivial) m)
  exact hbound hr

theorem Played.variableCount_eq (h : Played m r m') :
    m.variableCount + r.added = m'.variableCount := by
  obtain ⟨u, _, _, hedits, hm', _⟩ := h.edits (fun _ => True) (fun _ _ _ _ => trivial)
    (findsPermitted_of_forall (fun _ => trivial) m)
  have hle : m.variableCount ≤ m'.variableCount := by
    rw [hm']
    exact hedits.variableCount_le
  have hadded : r.added = m'.variableCount - m.variableCount := by
    cases h <;> rfl
  rw [hadded, Nat.add_sub_cancel' hle]

theorem Played.objective_eq_none (h : Played m r m') (hr : r.status = .infeasible) :
    r.objective = none := by
  cases h with
  | infeasible => rfl
  | optimal => cases hr

theorem Rounds.variableCount_eq (h : Rounds m log m') :
    m.variableCount + total (log.map (·.added)) = m'.variableCount := by
  induction h with
  | nil => rfl
  | cons hplayed _ ih =>
    rw [List.map_cons, total_cons, ← Nat.add_assoc, hplayed.variableCount_eq, ih]

def Report.extend (report : Report α) (r : RoundRecord α) : Report α :=
  { report with
    rounds := report.rounds + 1
    farkasRounds := report.farkasRounds + if r.status = .infeasible then 1 else 0
    columns := report.columns + r.added
    objective := r.objective.or report.objective
    infeasible := r.status = .infeasible }

theorem played_of_round {added : Nat}
    (h : (round report : Call M α (Report α × Nat)).run m = (.ok (report', added), m')) :
    ∃ r, Played m r m' ∧ r.added = added ∧ report' = report.extend r := by
  obtain ⟨status, t, hsolve, h⟩ := exists_of_run_bind_ok h
  obtain ⟨s, hs⟩ := eq_of_run_ask hsolve
  cases status with
  | infeasible =>
    obtain ⟨outcome, u, hprice, h⟩ := exists_of_run_bind_ok h
    cases h
    have hnew := newVariables_of_farkasPricing hprice
    rw [hs] at hnew
    refine ⟨_, .infeasible hsolve hprice, hnew.symm, ?_⟩
    rw [Report.extend, hnew]
    rfl
  | optimal =>
    obtain ⟨z, u, hread, h⟩ := exists_of_run_bind_ok h
    obtain ⟨s', hs'⟩ := eq_of_run_ask hread
    obtain ⟨outcome, w, hprice, h⟩ := exists_of_run_bind_ok h
    cases h
    have hnew := newVariables_of_reducedCostPricing hprice
    rw [hs', hs] at hnew
    refine ⟨_, .optimal hsolve hread hprice, hnew.symm, ?_⟩
    rw [Report.extend, hnew]
    rfl

theorem Played.meets_eq (h : Played m r m') (hr : r.status = .infeasible) :
    C.meets (report.extend r).objective m'.bestBound = C.meets report.objective m.bestBound := by
  rw [Report.extend, h.objective_eq_none hr, h.bestBound_eq hr]
  rfl

/-- The loop from a report on, until the bound meets the objective or it ends otherwise. -/
structure Loops (C : ColumnGeneration α) (n : Nat) (report report' : Report α)
    (log : List (RoundRecord α)) (m' : Manager M α) : Prop where
  length_le : log.length ≤ n
  report_eq : report' = { log.foldl Report.extend report with converged := report'.converged }
  added : ∀ r ∈ log.dropLast, 0 < r.added
  met : report'.converged = true → C.meets report'.objective m'.bestBound = true
  feasible : C.meets report'.objective m'.bestBound = true →
    ∃ r ∈ log.getLast?, r.status = .optimal
  ended : log.length = n ∨ (∃ r ∈ log.getLast?, r.added = 0) ∨
    C.meets report'.objective m'.bestBound = true

theorem Played.optimal_of_meets (h : Played m r m')
    (hopen : C.meets report.objective m.bestBound = false)
    (hmeets : C.meets (report.extend r).objective m'.bestBound = true) : r.status = .optimal := by
  cases hr : r.status with
  | optimal => rfl
  | infeasible =>
    rw [h.meets_eq hr, hopen] at hmeets
    cases hmeets

omit [Master M α] in
theorem Loops.cons {n : Nat} (h : Loops C n (report.extend r) report' log m')
    (hadded : 0 < r.added) : Loops C (n + 1) report report' (r :: log) m' := by
  have hlast (s : RoundRecord α) (hs : s ∈ log.getLast?) : s ∈ (r :: log).getLast? := by
    cases log with
    | nil => cases hs
    | cons t rest => exact hs
  constructor
  case length_le => exact Nat.succ_le_succ h.length_le
  case report_eq => exact h.report_eq
  case added =>
    intro s hs
    cases log with
    | nil => cases hs
    | cons t rest =>
      rcases List.mem_cons.1 hs with rfl | hs
      · exact hadded
      · exact h.added s hs
  case met => exact h.met
  case feasible =>
    intro hmeets
    obtain ⟨s, hs, hstatus⟩ := h.feasible hmeets
    exact ⟨s, hlast s hs, hstatus⟩
  case ended =>
    rcases h.ended with hlength | ⟨s, hs, hzero⟩ | hmeets
    · exact .inl (congrArg (· + 1) hlength)
    · exact .inr (.inl ⟨s, hlast s hs, hzero⟩)
    · exact .inr (.inr hmeets)

/-- The gap is open whenever another round begins. -/
theorem loops_of_rounds {n : Nat} (hconverged : report.converged = false)
    (hopen : C.meets report.objective m.bestBound = false)
    (h : (C.rounds n report : Call M α (Report α)).run m = (.ok report', m')) :
    ∃ log, Rounds m log m' ∧ Loops C n report report' log m' := by
  induction n generalizing report m with
  | zero =>
    cases h
    refine ⟨[], .nil _, Nat.le_refl 0, rfl, nofun, ?_, ?_, .inl rfl⟩
    · rw [hconverged]
      nofun
    · rw [hopen]
      nofun
  | succ n ih =>
    obtain ⟨⟨next, added⟩, t, hround, h⟩ := exists_of_run_bind_ok h
    obtain ⟨r, hplayed, rfl, rfl⟩ := played_of_round hround
    have hfeasible := hplayed.optimal_of_meets (C := C) hopen
    dsimp only at h
    split at h
    · rename_i hzero
      cases h
      refine ⟨[r], .cons hplayed (.nil _), Nat.succ_le_succ (Nat.zero_le n), rfl, nofun, ?_, ?_, ?_⟩
      · intro hmet
        exact absurd hmet (Bool.eq_false_iff.1 hconverged)
      · exact fun hmeets => ⟨r, rfl, hfeasible hmeets⟩
      · exact .inr (.inl ⟨r, rfl, hzero⟩)
    · rename_i hadded
      change (if C.meets (report.extend r).objective t.bestBound = true then _ else _ :
        Call M α (Report α)).run t = _ at h
      split at h
      · rename_i hmeets
        cases h
        refine ⟨[r], .cons hplayed (.nil _), Nat.succ_le_succ (Nat.zero_le n), rfl, nofun,
          fun _ => hmeets, ?_, .inr (.inr hmeets)⟩
        exact fun hmeets => ⟨r, rfl, hfeasible hmeets⟩
      · rename_i hmeets
        have hstays : (report.extend r).converged = false := hconverged
        obtain ⟨log, hrounds, hloops⟩ := ih hstays (Bool.eq_false_iff.2 hmeets) h
        exact ⟨r :: log, .cons hplayed hrounds, hloops.cons (Nat.pos_of_ne_zero hadded)⟩

omit [Scalar α] in
theorem foldl_extend (log : List (RoundRecord α)) (report : Report α) :
    log.foldl Report.extend report =
      { report with
        rounds := report.rounds + log.length
        farkasRounds := report.farkasRounds + log.countP (·.status = .infeasible)
        columns := report.columns + total (log.map (·.added))
        objective := (log.filterMap (·.objective)).getLast?.or report.objective
        infeasible := (log.getLast?.map fun r => decide (r.status = .infeasible)).getD
          report.infeasible } := by
  induction log using List.reverseRecOn with
  | nil => rfl
  | append_singleton log r ih =>
    rw [List.foldl_append, ih, List.foldl_cons, List.foldl_nil, Report.extend]
    congr 1
    · simp [Nat.add_assoc]
    · simp [List.countP_append, List.countP_cons, Nat.add_assoc]
    · simp [Nat.add_assoc]
    · cases hr : r.objective <;> simp [hr]
    · simp

omit [Master M α] in
theorem Loops.rounds_eq {n : Nat} (h : Loops C n report report' log m') :
    report'.rounds = report.rounds + log.length := by
  rw [h.report_eq, foldl_extend]

/-- What a report says about the rounds that were played from one state to another. -/
structure Report.Describes (C : ColumnGeneration α) (report : Report α) (m : Manager M α)
    (log : List (RoundRecord α)) (m' : Manager M α) : Prop where
  rounds : report.rounds = log.length ∧ log.length ≤ C.maxRounds
  farkasRounds : report.farkasRounds = log.countP (·.status = .infeasible)
  columns : m.variableCount + report.columns = m'.variableCount
  lowerBound : report.lowerBound = m'.bestBound
  incumbent : report.incumbent = m'.incumbent
  objective : report.objective = (log.filterMap (·.objective)).getLast?
  infeasible : report.infeasible = true ↔ ∃ r ∈ log.getLast?, r.status = .infeasible
  converged : report.converged = true ↔ ∃ z b, report.objective = some z ∧
    report.lowerBound = some b ∧ z - C.gapTolerance * Scalar.magnitude z ≤ b
  feasible : report.converged = true → report.infeasible = false
  ended : report.rounds = C.maxRounds ∨ (∃ r ∈ log.getLast?, r.added = 0) ∨
    report.converged = true

theorem meets_iff {objective bound : Option α} : C.meets objective bound = true ↔
    ∃ z b, objective = some z ∧ bound = some b ∧
      z - C.gapTolerance * Scalar.magnitude z ≤ b := by
  cases objective <;> cases bound <;> simp [meets]

/-- A run is described by its report, whatever the master comes to in each round. -/
theorem describes_of_run (h : (C.run : Call M α (Report α)).run m = (.ok report, m')) :
    ∃ log, Rounds m log m' ∧ report.Describes C m log m' := by
  obtain ⟨last, t, hloop, h⟩ := exists_of_run_bind_ok h
  cases h
  obtain ⟨log, hrounds, hloops⟩ := loops_of_rounds rfl rfl hloop
  refine ⟨log, hrounds, ?_⟩
  have hreport := hloops.report_eq
  rw [foldl_extend] at hreport
  have hrounds_eq : last.rounds = log.length := hloops.rounds_eq.trans (Nat.zero_add _)
  have hconverged : (last.converged || C.meets last.objective m'.bestBound) = true ↔
      C.meets last.objective m'.bestBound = true := by
    rw [Bool.or_eq_true, or_iff_right_of_imp hloops.met]
  have hinfeasible : last.infeasible = true ↔ ∃ r ∈ log.getLast?, r.status = .infeasible := by
    rw [hreport]
    cases log.getLast? <;> simp [Report.blank]
  constructor
  case rounds => exact ⟨hrounds_eq, hloops.length_le⟩
  case farkasRounds =>
    rw [hreport]
    exact Nat.zero_add _
  case columns =>
    rw [hreport, ← hrounds.variableCount_eq]
    exact congrArg _ (Nat.zero_add _)
  case lowerBound => rfl
  case incumbent => rfl
  case objective =>
    rw [hreport]
    exact Option.or_none
  case infeasible => exact hinfeasible
  case converged => exact hconverged.trans meets_iff
  case feasible =>
    intro hmet
    obtain ⟨r, hr, hoptimal⟩ := hloops.feasible (hconverged.1 hmet)
    apply Bool.eq_false_iff.2
    intro hinf
    obtain ⟨r', hr', hstatus⟩ := hinfeasible.1 hinf
    obtain rfl := Option.mem_unique hr hr'
    rw [hoptimal] at hstatus
    cases hstatus
  case ended =>
    rcases hloops.ended with hlength | hzero | hmeets
    · exact .inl (hrounds_eq.trans hlength)
    · exact .inr (.inl hzero)
    · exact .inr (.inr (hconverged.2 hmeets))

/-- A manager on the triangle whose master is infeasible at first, and again in the third round. -/
def wavering : Manager (ScriptedMaster Rat) Rat :=
  let settings : LedgerSettings Rat := { duals := some ⟨[2, 0, 0, 3, 0]⟩, objective := some 5 }
  (onScript 5 settings
    ⟨fun _ _ => false, fun _ => "", [⟨{}, none⟩, ⟨{}, none⟩, ⟨{}, some .infeasible⟩]⟩
    Network.triangle.expand (.edge {}) [0, 1, 2] false).after .init

theorem describes_wavering : ∃ report log,
    ((standard : ColumnGeneration Rat).run.run wavering).1 = .ok report ∧
    (report.rounds, report.farkasRounds, report.columns) = (3, 2, 4) ∧
    report.objective = some 5 ∧ report.infeasible = true ∧
    Rounds wavering log ((standard : ColumnGeneration Rat).run.run wavering).2 ∧
    report.Describes standard wavering log
      ((standard : ColumnGeneration Rat).run.run wavering).2 := by
  have hfigures : ((standard : ColumnGeneration Rat).run.run wavering).1.toOption.map (fun report =>
      ((report.rounds, report.farkasRounds, report.columns), report.objective,
        report.infeasible)) = some ((3, 2, 4), some 5, true) := by
    decide +kernel
  rcases hrun : (standard : ColumnGeneration Rat).run.run wavering with ⟨e | report, m'⟩ <;>
    rw [hrun] at hfigures
  · cases hfigures
  · obtain ⟨hcounts, hrest⟩ := Prod.mk.inj (Option.some.inj hfigures)
    obtain ⟨hobjective, hinfeasible⟩ := Prod.mk.inj hrest
    obtain ⟨log, hrounds, hdescribes⟩ := describes_of_run hrun
    exact ⟨report, log, rfl, hcounts, hobjective, hinfeasible, hrounds, hdescribes⟩

end TourPricing.ColumnGeneration
