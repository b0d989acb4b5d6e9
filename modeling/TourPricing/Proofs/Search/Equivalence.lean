import Mathlib.Data.List.Nodup
import TourPricing.Proofs.Lists
import TourPricing.Proofs.Search.Narrowing

namespace TourPricing

theorem Frontier.sweep_congr {β σ : Type}
    {settle settle' : Stop → β → Frontier β → σ → Frontier β × σ} {I : Frontier β → σ → Prop}
    (step : ∀ s b rest acc, I ⟨(s, b) :: rest⟩ acc →
      settle' s b ⟨rest⟩ acc = settle s b ⟨rest⟩ acc ∧
        I (settle s b ⟨rest⟩ acc).1 (settle s b ⟨rest⟩ acc).2)
    (limit : Nat) {F : Frontier β} {acc : σ} (h : I F acc) :
    sweep settle' limit F acc = sweep settle limit F acc := by
  induction limit generalizing F acc with
  | zero => rfl
  | succ limit ih =>
    obtain ⟨_ | ⟨⟨s, b⟩, rest⟩⟩ := F
    · rfl
    · obtain ⟨heq, hI⟩ := step s b rest acc h
      simp only [sweep, heq]
      exact ih hI

namespace Restriction

variable {n k v : Nat} {visits : List Nat}

theorem not_mem_of_admits (hle : visits.length ≤ k)
    (h : (acyclic k).admits (Trail.ofVisits n (acyclic k).rule.memory visits) v = true) :
    v ∉ visits := by
  intro hv
  obtain ⟨i, hi⟩ := List.mem_iff_getElem?.1 hv
  have hsees : visits.length - i ≤ max k 1 :=
    ((Nat.sub_le _ _).trans hle).trans (Nat.le_max_left k 1)
  exact admits_ofVisits_iff.1 h i hsees hi

theorem nodup_of_obeys (hk : n ≤ k) (hlt : ∀ v ∈ visits, v < n) (h : (acyclic k).Obeys visits) :
    visits.Nodup := by
  induction visits using List.reverseRecOn with
  | nil => exact .nil
  | append_singleton visits v ih =>
    obtain ⟨hobeys, hadm⟩ := (obeys_snoc_iff (n := n)).1 h
    have hlt' : ∀ w ∈ visits, w < n := fun w hw => hlt w (List.mem_append_left _ hw)
    have hnodup := ih hlt' hobeys
    have hnew := not_mem_of_admits ((length_le_of_nodup hnodup hlt').trans hk) hadm
    rw [← List.concat_eq_append]
    exact List.Nodup.concat hnew hnodup

end Restriction

namespace Search

variable {α : Type} {S : Search α}

def under (S : Search α) (r : Restriction) : Search α :=
  { S with rule := r.rule }

section

variable [Scalar α]

def admitting (S : Search α) (admits : Trail → Nat → Bool) : Search α :=
  { S with rule := { S.rule with admits } }

section

variable {admits : Trail → Nat → Bool}
  (h : ∀ visits v, admits (Trail.ofVisits S.expansion.network.dimension S.rule.memory visits) v =
    S.rule.admits (Trail.ofVisits S.expansion.network.dimension S.rule.memory visits) v)

include h

theorem extendBy_admitting (legs : List Leg) (leg : Leg)
    (state : Frontier (List (Label α)) × Progress α) :
    (S.admitting admits).extendBy (S.labelOf legs) state leg =
      S.extendBy (S.labelOf legs) state leg := by
  have hadmits : admits (S.labelOf legs).trail leg.head.vertex =
      S.rule.admits (S.labelOf legs).trail leg.head.vertex := h _ _
  simp only [extendBy, admitting, hadmits]
  rfl

theorem settle_admitting {s : Stop} {bucket : List (Label α)} (hb : S.Holds s bucket)
    (F : Frontier (List (Label α))) (progress : Progress α) :
    (S.admitting admits).settle s bucket F progress = S.settle s bucket F progress := by
  cases ht : S.expansion.network.isTerminal s with
  | true =>
    rw [settle_of_terminal ht]
    exact settle_of_terminal ht
  | false =>
    rw [settle_eq_foldl ht, settle_eq_foldl (S := S.admitting admits) ht]
    apply List.foldl_ext
    intro state p hp
    obtain ⟨legs, _, hlabel⟩ := hb p.1 (List.mem_product.1 hp).1
    rw [hlabel]
    exact extendBy_admitting h legs p.2 state

/-- Searches that differ only in what they admit, and there on no trail that visits leave, are the
same step by step. -/
theorem run_admitting : (S.admitting admits).run = S.run := by
  have hexplore : (S.admitting admits).explore = S.explore := by
    apply Frontier.sweep_congr (I := fun F progress => S.Tracks (F, progress)) _ _ tracks_start
    intro s bucket rest progress ht
    exact ⟨settle_admitting h ht.rest.1 _ _, ht.settle⟩
  rw [run, hexplore]
  rfl

end

theorem run_under_twoCycleFree (S : Search α) :
    (S.under .twoCycleFree).run = (S.under (.acyclic 2)).run := by
  have heq : S.under .twoCycleFree =
      (S.under (.acyclic 2)).admitting Restriction.twoCycleFree.admits := rfl
  rw [heq]
  apply run_admitting
  intro visits v
  have hacyclic : (S.under (.acyclic 2)).rule.admits
        (Trail.ofVisits S.expansion.network.dimension 2 visits) v = true ↔
      ∀ i, Restriction.twoCycleFree.Sees (visits.length - i) → visits[i]? ≠ some v :=
    Restriction.admits_ofVisits_iff (r := .acyclic 2)
  exact Bool.eq_iff_iff.2 (Restriction.admits_ofVisits_iff.trans hacyclic.symm)

end

theorem tightens_under (S : Search α) (r q : Restriction) : (S.under r).Tightens (S.under q) :=
  ⟨rfl, rfl, le_rfl, fun _ he => he, le_rfl, fun t ht => ⟨t, ht, le_rfl⟩⟩

theorem holeFree_narrows_acyclic (S : Search α) (k : Nat) :
    (S.under .holeFree).Narrows (S.under (.acyclic k)) :=
  (S.tightens_under .holeFree (.acyclic k)).narrows rfl rfl le_top

/-- A walk that cannot go back to any of its last visits, as many as there are vertices, enters no
vertex twice. -/
theorem acyclic_narrows_holeFree (h : S.expansion.network.WellFormed) {k : Nat}
    (hk : S.expansion.network.dimension ≤ k) :
    (S.under (.acyclic k)).Narrows (S.under .holeFree) where
  network_eq := rfl
  cost_eq := rfl
  horizon_le := le_rfl
  allows _ ha := ha
  admits legs s leg w hl hadm := by
    have hlt := w.visits_lt h
    have hobeys := obeys_of_walk (S := S.under (.acyclic k)) h rfl w (h.not_terminal hl)
    have hnodup := Restriction.nodup_of_obeys hk hlt hobeys
    have hle := (length_le_of_nodup hnodup hlt).trans hk
    exact Restriction.admits_of_not_mem .holeFree _ (Restriction.not_mem_of_admits hle hadm)

theorem Narrows.atMost_head_cost {A B : Search Rat} (h : A.Narrows B)
    (hB : B.expansion.network.WellFormed)
    (hd : B.rule.IsDominance B.expansion.network.dimension) (he : B.run.exhaustive = true)
    (hlimits : A.limits = B.limits) :
    ∀ c ∈ A.run.paths.head?.map (·.1), Scalar.AtMost (B.run.paths.head?.map (·.1)) c := by
  intro c hc
  obtain ⟨p, hp, rfl⟩ := Option.map_eq_some_iff.1 hc
  have hmem := List.mem_of_mem_head? hp
  have hmax : 1 ≤ B.limits.maxPaths := by
    have hpos := List.length_pos_of_mem hmem
    rw [run_paths_length, hlimits] at hpos
    exact (lt_min_iff.1 hpos).1
  obtain ⟨q, hq, hle⟩ := h.exists_head_le hB hd he hmax (by rw [hlimits]) p hmem
  exact ⟨q.1, Option.map_eq_some_iff.2 ⟨q, hq, rfl⟩, hle⟩

/-- A search that cannot go back to its last two visits is the same search as one that cannot go
back and forth, whatever labels are dropped. Searches that look back over all vertices agree with
searches that enter no vertex twice on whether there is a path, on the cost of the first one and on
the least edge cost, as long as neither drops a label. -/
theorem run_under_agree :
    (∀ (α : Type) [Scalar α] (S : Search α),
      (S.under .twoCycleFree).run = (S.under (.acyclic 2)).run) ∧
    ∀ (S : Search Rat) (k : Nat), S.expansion.network.WellFormed →
      S.expansion.network.dimension ≤ k →
      (S.under (.acyclic k)).run.exhaustive = true → (S.under .holeFree).run.exhaustive = true →
      ((S.under (.acyclic k)).run.paths = [] ↔ (S.under .holeFree).run.paths = []) ∧
      (S.under (.acyclic k)).run.paths.head?.map (·.1) =
        (S.under .holeFree).run.paths.head?.map (·.1) ∧
      (S.under (.acyclic k)).run.leastEdgeCost = (S.under .holeFree).run.leastEdgeCost := by
  refine ⟨fun α _ S => run_under_twoCycleFree S, fun S k hN hk hacyclic hholeFree => ?_⟩
  have hto := acyclic_narrows_holeFree hN hk
  have hfrom := holeFree_narrows_acyclic S k
  have hd (r : Restriction) : r.rule.IsDominance S.expansion.network.dimension := r.isDominance _
  have hhead : (S.under (.acyclic k)).run.paths.head?.map (·.1) =
      (S.under .holeFree).run.paths.head?.map (·.1) :=
    Scalar.eq_of_atMost (hto.atMost_head_cost hN (hd _) hholeFree rfl)
      (hfrom.atMost_head_cost hN (hd _) hacyclic rfl)
  have hleast : (S.under (.acyclic k)).run.leastEdgeCost = (S.under .holeFree).run.leastEdgeCost :=
    Scalar.eq_of_atMost (hto.atMost_least hN (hd _) hholeFree)
      (hfrom.atMost_least hN (hd _) hacyclic)
  refine ⟨?_, hhead, hleast⟩
  rw [← List.head?_eq_none_iff, ← List.head?_eq_none_iff, ← Option.map_eq_none_iff (f := (·.1)),
    hhead, Option.map_eq_none_iff]

theorem run_under_agree_triangle : (triangle.under (.acyclic 3)).run.exhaustive = true ∧
    (triangle.under .holeFree).run.exhaustive = true ∧
    (triangle.under (.acyclic 3)).run.paths.head?.map (·.1) =
      (triangle.under .holeFree).run.paths.head?.map (·.1) := by
  have hN : triangle.expansion.network.WellFormed :=
    Network.wellFormed_of_ofArcs Network.ofArcs_triangle
  have hacyclic : (triangle.under (.acyclic 3)).run.exhaustive = true := by decide +kernel
  have hholeFree : (triangle.under .holeFree).run.exhaustive = true := by decide +kernel
  obtain ⟨_, hhead, _⟩ := run_under_agree.2 triangle 3 hN le_rfl hacyclic hholeFree
  exact ⟨hacyclic, hholeFree, hhead⟩

end Search

end TourPricing
