import TourPricing.Proofs.LawfulScalar
import TourPricing.Proofs.Search.Soundness

namespace TourPricing

/-- Folds come to the same if each step that leads to an outcome with `Q` starts from one and is the
same in both, and the outcome of the first fold is one. -/
theorem foldl_eq_of_final {β γ : Type} {f g : β → γ → β} {Q : β → Prop} {l : List γ} {b : β}
    (step : ∀ b, ∀ c ∈ l, Q (f b c) → Q b ∧ g b c = f b c) (h : Q (l.foldl f b)) :
    Q b ∧ l.foldl g b = l.foldl f b := by
  induction l generalizing b with
  | nil => exact ⟨h, rfl⟩
  | cons c rest ih =>
    obtain ⟨hQ, hrest⟩ := ih (fun b d hd => step b d (List.mem_cons_of_mem c hd)) h
    obtain ⟨hb, heq⟩ := step b c List.mem_cons_self hQ
    exact ⟨hb, by rw [List.foldl_cons, List.foldl_cons, heq, hrest]⟩

theorem Frontier.sweep_eq_of_final {β σ : Type}
    {settle settle' : Stop → β → Frontier β → σ → Frontier β × σ} {Q : σ → Prop}
    (step : ∀ s b F acc, Q (settle s b F acc).2 →
      Q acc ∧ settle' s b F acc = settle s b F acc)
    (limit : Nat) {F : Frontier β} {acc : σ} (h : Q (sweep settle limit F acc)) :
    Q acc ∧ sweep settle' limit F acc = sweep settle limit F acc := by
  induction limit generalizing F acc with
  | zero => exact ⟨h, rfl⟩
  | succ limit ih =>
    obtain ⟨_ | ⟨⟨s, b⟩, rest⟩⟩ := F
    · exact ⟨h, rfl⟩
    · simp only [sweep] at h ⊢
      obtain ⟨hQ, hrest⟩ := ih h
      obtain ⟨hacc, heq⟩ := step s b ⟨rest⟩ acc hQ
      rw [heq]
      exact ⟨hacc, hrest⟩

theorem Bucket.insert_eq_of_le {α : Type} [Scalar α] {rule : VisitRule} {limit more : Nat}
    {bucket : List (Label α)} {x : Label α} (hle : limit ≤ more)
    (hcut : (Bucket.insert rule limit bucket x).2 = false) :
    Bucket.insert rule more bucket x = Bucket.insert rule limit bucket x := by
  simp only [Bucket.insert] at hcut ⊢
  split
  · rfl
  · rename_i hany
    rw [if_neg hany] at hcut
    have hfits : ¬ max limit 1 <
        (bucket.filter (fun old => !x.covers rule old) ++ [x]).length := by
      intro hlt
      rw [if_pos hlt] at hcut
      cases hcut
    rw [if_neg hfits, if_neg (by omega)]

namespace Search

variable {α : Type} {S : Search α} {limits : SearchLimits α}

def within (S : Search α) (limits : SearchLimits α) : Search α :=
  { S with limits }

@[simp] theorem expansion_within : (S.within limits).expansion = S.expansion := rfl

@[simp] theorem cost_within : (S.within limits).cost = S.cost := rfl

@[simp] theorem rule_within : (S.within limits).rule = S.rule := rfl

@[simp] theorem limits_within : (S.within limits).limits = limits := rfl

@[simp] theorem allows_within (leg : Leg) : (S.within limits).allows leg = S.allows leg := rfl

variable [Scalar α]

section

variable (hle : S.limits.labelLimit ≤ limits.labelLimit)

include hle

theorem extendBy_within {label : Label α} {leg : Leg}
    {state : Frontier (List (Label α)) × Progress α}
    (he : (S.extendBy label state leg).2.exhaustive = true) :
    state.2.exhaustive = true ∧
      (S.within limits).extendBy label state leg = S.extendBy label state leg := by
  obtain ⟨F, progress⟩ := state
  by_cases ha : S.allows leg = true
  · by_cases hs : leg.head.vertex = S.expansion.network.source
    · exact ⟨by simpa [extendBy, ha, hs] using he, by simp [extendBy, ha, hs]⟩
    · by_cases hr : S.rule.admits label.trail leg.head.vertex = true
      · let bucket := (F.get? leg.head).getD []
        let extended := label.extend S.rule.memory leg (S.cost leg.edge)
        obtain ⟨hbefore, hcut⟩ : progress.exhaustive = true ∧
            (Bucket.insert S.rule S.limits.labelLimit bucket extended).2 = false := by
          simpa [extendBy, ha, hs, hr] using he
        have hinsert := Bucket.insert_eq_of_le hle hcut
        exact ⟨hbefore, by simp [extendBy, ha, hs, hr, bucket, extended, hinsert]⟩
      · exact ⟨by simpa [extendBy, ha, hs, hr] using he, by simp [extendBy, ha, hs, hr]⟩
  · exact ⟨by simpa [extendBy, ha] using he, by simp [extendBy, ha]⟩

/-- A stop whose settling costs no label is settled alike under a greater label limit. -/
theorem settle_within {s : Stop} {bucket : List (Label α)} {F : Frontier (List (Label α))}
    {progress : Progress α} (he : (S.settle s bucket F progress).2.exhaustive = true) :
    progress.exhaustive = true ∧
      (S.within limits).settle s bucket F progress = S.settle s bucket F progress := by
  cases ht : S.expansion.network.isTerminal s with
  | true =>
    rw [settle_of_terminal ht] at he ⊢
    exact ⟨he, settle_of_terminal (S := S.within limits) ht⟩
  | false =>
    rw [settle_eq_foldl ht] at he ⊢
    rw [settle_eq_foldl (S := S.within limits) ht]
    apply foldl_eq_of_final
      (Q := fun state : Frontier (List (Label α)) × Progress α => state.2.exhaustive = true) _ he
    intro state p _ he
    exact extendBy_within hle he

/-- A search that drops no label is the same search under a greater label limit. -/
theorem explore_within (he : S.explore.exhaustive = true) :
    (S.within limits).explore = S.explore := by
  refine (Frontier.sweep_eq_of_final
    (Q := fun progress : Progress α => progress.exhaustive = true) ?_ _ he).2
  intro s bucket F progress he
  exact settle_within hle he

end

theorem explore_within_congr (m m' L : Nat) (c c' : α) :
    (S.within ⟨m, L, c⟩).explore = (S.within ⟨m', L, c'⟩).explore := rfl

theorem ranked_within [LawfulScalar α] (m m' L : Nat) {c c' : α} (hc : c ≤ c') :
    (S.within ⟨m, L, c⟩).ranked = (S.within ⟨m', L, c'⟩).ranked.filter (·.cost < c) := by
  rw [ranked, ranked, explore_within_congr m m' L c c', List.filter_filter]
  apply List.filter_congr
  intro x _
  simp only [limits_within]
  by_cases hx : x.cost < c
  · simp [hx, LawfulScalar.lt_of_lt_of_le hx hc]
  · simp [hx]

/-- The limits of a search only cut. As long as no label is dropped, a greater label limit changes
nothing. A limit on the number of paths returns the first ones of those that a greater limit
returns. If it is not reached, a lower threshold returns those paths that are below it, in the same
order. Neither of the two limits on paths has a say in the least edge cost or in whether labels are
dropped. -/
theorem limits_only_cut [LawfulScalar α] (S : Search α) :
    (∀ m L L' c, L ≤ L' → (S.within ⟨m, L, c⟩).run.exhaustive = true →
      (S.within ⟨m, L', c⟩).run = (S.within ⟨m, L, c⟩).run) ∧
    (∀ m m' L c, m ≤ m' →
      (S.within ⟨m, L, c⟩).run.paths = (S.within ⟨m', L, c⟩).run.paths.take m) ∧
    (∀ m L c c', c ≤ c' → (S.within ⟨m, L, c'⟩).run.paths.length < m →
      (S.within ⟨m, L, c⟩).run.paths =
        (S.within ⟨m, L, c'⟩).run.paths.filter (·.1 < c)) ∧
    ∀ m m' L c c',
      (S.within ⟨m, L, c⟩).run.leastEdgeCost = (S.within ⟨m', L, c'⟩).run.leastEdgeCost ∧
      (S.within ⟨m, L, c⟩).run.exhaustive = (S.within ⟨m', L, c'⟩).run.exhaustive := by
  refine ⟨?_, ?_, ?_, ?_⟩
  · intro m L L' c hle he
    have hexplore : (S.within ⟨m, L', c⟩).explore = (S.within ⟨m, L, c⟩).explore :=
      explore_within (S := S.within ⟨m, L, c⟩) hle he
    rw [run, run, hexplore]
    rfl
  · intro m m' L c hle
    have hranked : (S.within ⟨m, L, c⟩).ranked = (S.within ⟨m', L, c⟩).ranked := rfl
    rw [run_paths_eq, run_paths_eq, hranked, ← List.map_take, List.take_take]
    simp only [limits_within, min_eq_left hle]
  · intro m L c c' hc hlt
    have hranked := ranked_within (S := S) m m L hc
    have hall : (S.within ⟨m, L, c'⟩).ranked.length ≤ m := by
      simp only [run_paths_eq, List.length_map, List.length_take, limits_within] at hlt
      omega
    have hsome : (S.within ⟨m, L, c⟩).ranked.length ≤ m := by
      rw [hranked]
      exact (List.length_filter_le _ _).trans hall
    rw [run_paths_eq, run_paths_eq, limits_within, limits_within, List.take_of_length_le hsome,
      List.take_of_length_le hall, List.filter_map, hranked]
    rfl
  · intro m m' L c c'
    exact ⟨rfl, rfl⟩

theorem limits_only_cut_triangle :
    (triangle.within ⟨10, 2, -1⟩).run.exhaustive = true ∧
    (triangle.within ⟨10, 2, -1⟩).run.paths.length = 2 ∧
    (triangle.within ⟨10, 64, -1⟩).run = (triangle.within ⟨10, 2, -1⟩).run ∧
    (triangle.within ⟨1, 2, -1⟩).run.paths = (triangle.within ⟨10, 2, -1⟩).run.paths.take 1 ∧
    (triangle.within ⟨10, 2, -2⟩).run.paths =
      (triangle.within ⟨10, 2, -1⟩).run.paths.filter (·.1 < -2) := by
  have he : (triangle.within ⟨10, 2, -1⟩).run.exhaustive = true := by decide +kernel
  have hlen : (triangle.within ⟨10, 2, -1⟩).run.paths.length = 2 := by
    rw [run_paths_length]
    decide +kernel
  have hlower : (-2 : Rat) ≤ -1 := by decide +kernel
  obtain ⟨hlabels, hpaths, hthreshold, _⟩ := limits_only_cut triangle
  exact ⟨he, hlen, hlabels 10 2 64 (-1) (by decide) he, hpaths 1 10 2 (-1) (by decide),
    hthreshold 10 2 (-2) (-1) hlower (by rw [hlen]; decide)⟩

end Search

end TourPricing
