import TourPricing.Proofs.ColumnGeneration.Rounds
import TourPricing.Proofs.Expansion.Feasibility

namespace TourPricing

theorem length_le_total {l : List Nat} (h : ∀ n ∈ l, 0 < n) : l.length ≤ total l := by
  induction l with
  | nil => exact Nat.le_refl 0
  | cons n l ih =>
    have hn := h n List.mem_cons_self
    have hl := ih fun a ha => h a (List.mem_cons_of_mem _ ha)
    rw [List.length_cons, total_cons]
    omega

section

variable {α : Type} [Scalar α] {E : Expansion} (hN : E.network.WellFormed)

include hN

theorem Pricer.contains_price {p : Pricer α} {round : Round α} {result : PricingResult α}
    (h : (p.price E round).1 = .ok result) : result.Uses E.Contains := by
  apply Pricer.uses_price _ _ h
  · rintro S rfl p hp leg hl
    obtain ⟨legs, ⟨s, w, _⟩, rfl, _⟩ := Search.closedWalk_of_mem_run_paths hN hp
    exact w.contains hN hl
  · intro e he leg hl
    exact Expansion.contains_iff_exists.2 ⟨e, he, hl⟩

omit [Scalar α] in
theorem Expansion.length_le_legCount {legs : List Leg} (hnodup : legs.Nodup)
    (hcontains : ∀ leg ∈ legs, E.Contains leg) : legs.length ≤ E.legCount := by
  rw [legCount, ← length_flatMap_eq_total]
  apply (hnodup.subperm _).length_le
  intro leg hl
  obtain ⟨hs, ho⟩ := (contains_iff hN).1 (hcontains leg hl)
  exact List.mem_flatMap.2 ⟨leg.tail, hs, ho⟩

omit [Scalar α] in
theorem Expansion.contains_of_feasible {vertices : List Nat} {algorithm : String} {r : Route}
    (hfeasible : (Tour.evaluate { E.network with horizon := E.horizon } vertices algorithm).feasible
      = true) (h : E.trace vertices = .ok r) : ∀ leg ∈ r.legs, E.Contains leg := by
  have hcomplete := Tour.isComplete_of_feasible hfeasible
  exact (inside_of_trace hN h (Network.source_not_mem_tail hcomplete)).contains

end

namespace ColumnGeneration

open Manager

variable {M α : Type} [Scalar α] [Master M α] {C : ColumnGeneration α} {report : Report α}
  {r : RoundRecord α} {log : List (RoundRecord α)} {m m' : Manager M α}

/-- A manager that has variables for legs of the expansion only, one for each of them, and an
initial tour that stays within the expansion. -/
structure Inside (m : Manager M α) : Prop where
  wellFormed : m.expansion.network.WellFormed
  tour : ∀ route, m.expansion.trace m.initialTour = .ok route →
    ∀ leg ∈ route.legs, m.expansion.Contains leg
  nodup : (m.columns.map (·.1)).Nodup
  contains : ∀ p ∈ m.columns, m.expansion.Contains p.1

omit [Scalar α] [Master M α] in
theorem Inside.variableCount_le (h : Inside m) : m.variableCount ≤ m.expansion.legCount := by
  rw [variableCount, ← List.length_map (·.1)]
  apply Expansion.length_le_legCount h.wellFormed h.nodup
  intro leg hl
  obtain ⟨p, hp, rfl⟩ := List.mem_map.1 hl
  exact h.contains p hp

theorem Played.inside (h : Played m r m') (hm : Inside m) :
    Inside m' ∧ m'.expansion = m.expansion := by
  obtain ⟨u, seeded, bestBound, hedits, rfl, _⟩ := h.edits m.expansion.Contains hm.tour
    fun _ _ => Pricer.contains_price hm.wellFormed
  obtain ⟨added, hcolumns, hadded⟩ := hedits.exists_columns
  have hexpansion := hedits.keeps.expansion
  have htour := hedits.keeps.initialTour
  refine ⟨?_, hexpansion⟩
  constructor
  case wellFormed => exact hexpansion ▸ hm.wellFormed
  case tour =>
    change ∀ route, u.expansion.trace u.initialTour = .ok route →
      ∀ leg ∈ route.legs, u.expansion.Contains leg
    rw [hexpansion, htour]
    exact hm.tour
  case nodup => exact hedits.nodup hm.nodup
  case contains =>
    change ∀ p ∈ u.columns, u.expansion.Contains p.1
    rw [hexpansion, hcolumns]
    intro p hp
    rcases List.mem_append.1 hp with hp | hp
    · exact hm.contains p hp
    · exact hadded p hp

theorem Rounds.inside (h : Rounds m log m') (hm : Inside m) :
    Inside m' ∧ m'.expansion = m.expansion := by
  induction h with
  | nil => exact ⟨hm, rfl⟩
  | cons hplayed _ ih =>
    obtain ⟨hnext, hexpansion⟩ := hplayed.inside hm
    obtain ⟨hlast, hrest⟩ := ih hnext
    exact ⟨hlast, hrest.trans hexpansion⟩

omit [Scalar α] in
theorem length_le_total_added (hadded : ∀ r ∈ log.dropLast, 0 < r.added) :
    log.length ≤ total (log.map (·.added)) + 1 := by
  rcases List.eq_nil_or_concat log with rfl | ⟨before, r, rfl⟩
  · exact Nat.zero_le _
  · rw [List.concat_eq_append, List.dropLast_concat] at hadded
    have hbefore : before.length ≤ total (before.map (·.added)) := by
      rw [← List.length_map (·.added)]
      apply length_le_total
      intro n hn
      obtain ⟨s, hs, rfl⟩ := List.mem_map.1 hn
      exact hadded s hs
    rw [List.concat_eq_append, List.length_append, List.map_append, total_append]
    exact Nat.succ_le_succ (hbefore.trans (Nat.le_add_right _ _))

/-- On an expansion that can be built, and from a tour that can be evaluated and is feasible, column
generation ends before the legs of the expansion run out, however many rounds it may
take, and adds variables for these legs only. -/
theorem rounds_bounded_of_run {N : Network} {horizon : Nat} (hN : N.WellFormed)
    (hE : Expansion.build? N horizon = some m.expansion) {algorithm : String} {T : Tour}
    (hT : Tour.evaluate? { N with horizon } m.initialTour algorithm = some T)
    (hfeasible : T.feasible = true)
    (hnodup : (m.columns.map (·.1)).Nodup) (hcontains : ∀ p ∈ m.columns, m.expansion.Contains p.1)
    (h : (C.run : Call M α (Report α)).run m = (.ok report, m')) :
    (∃ log, Rounds m log m' ∧ report.rounds = log.length ∧ ∀ r ∈ log.dropLast, 0 < r.added) ∧
    report.rounds ≤ m.expansion.legCount - m.variableCount + 1 ∧
    ∀ p ∈ m'.columns, m.expansion.Contains p.1 := by
  obtain ⟨rfl, rfl⟩ := Expansion.of_build? hE
  rw [← Tour.evaluate_of_evaluate? hT] at hfeasible
  have hm : Inside m :=
    ⟨hN, fun _ => Expansion.contains_of_feasible hN hfeasible, hnodup, hcontains⟩
  obtain ⟨last, t, hloop, h⟩ := exists_of_run_bind_ok h
  cases h
  obtain ⟨log, hrounds, hloops⟩ := loops_of_rounds rfl rfl hloop
  obtain ⟨hm', hexpansion⟩ := hrounds.inside hm
  have hlength : last.rounds = log.length := hloops.rounds_eq.trans (Nat.zero_add _)
  have hadded := length_le_total_added hloops.added
  have hcount := hrounds.variableCount_eq
  have hle := hm'.variableCount_le
  rw [hexpansion] at hle
  refine ⟨⟨log, hrounds, hlength, hloops.added⟩, ?_, ?_⟩
  · change last.rounds ≤ _
    omega
  · rw [← hexpansion]
    exact hm'.contains

theorem rounds_bounded_wavering :
    Expansion.build? Network.triangle 10 = some wavering.expansion ∧
    (∃ T, Tour.evaluate? { Network.triangle with horizon := 10 } wavering.initialTour "around" =
      some T ∧ T.feasible = true) ∧
    ∃ report, ((standard : ColumnGeneration Rat).run.run wavering).1 = .ok report ∧
      (∃ log, Rounds wavering log ((standard : ColumnGeneration Rat).run.run wavering).2 ∧
        report.rounds = log.length ∧ ∀ r ∈ log.dropLast, 0 < r.added) ∧
      report.rounds ≤ wavering.expansion.legCount - wavering.variableCount + 1 ∧
      ∀ p ∈ ((standard : ColumnGeneration Rat).run.run wavering).2.columns,
        wavering.expansion.Contains p.1 := by
  have hexpansion : wavering.expansion = Network.triangle.expand := expansion_after _ _
  have hE : Expansion.build? Network.triangle 10 = some wavering.expansion := by
    rw [hexpansion]
    exact Expansion.build?_of_all (by decide +kernel)
  have hT : Tour.evaluate? { Network.triangle with horizon := 10 } wavering.initialTour "around" =
      some ⟨[0, 1, 2], some 3, 3, true, "around"⟩ := by
    decide +kernel
  have hisOk : ((standard : ColumnGeneration Rat).run.run wavering).1.isOk = true := by
    decide +kernel
  rcases hrun : (standard : ColumnGeneration Rat).run.run wavering with ⟨e | report, m'⟩
  · rw [hrun] at hisOk
    cases hisOk
  · refine ⟨hE, ⟨_, hT, rfl⟩, report, rfl, ?_⟩
    exact rounds_bounded_of_run (Network.wellFormed_of_ofArcs Network.ofArcs_triangle) hE hT rfl
      (by decide +kernel) (by decide +kernel) hrun

end ColumnGeneration

end TourPricing
