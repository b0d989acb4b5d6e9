import TourPricing.Proofs.Construction.MultiStart
import TourPricing.Proofs.Construction.NearestWalk

namespace TourPricing

variable {N : Network} {runs : List Tour} {t u v best : Tour}

namespace Tour

/-- A tour is better than another one in one of the respects in which tours are compared that are
not feasible. -/
def Outdoes (t u : Tour) : Prop :=
  t.rank < u.rank ∨ u.vertices.length < t.vertices.length

def Beats (t u : Tour) : Prop :=
  t.rank < u.rank ∧ u.vertices.length < t.vertices.length

def Trades (t u : Tour) : Prop :=
  t.rank < u.rank ∧ t.vertices.length < u.vertices.length

def AsGoodAs (t u : Tour) : Prop :=
  t.rank ≤ u.rank ∧ u.vertices.length ≤ t.vertices.length

theorem Beats.outdoes (h : t.Beats u) : t.Outdoes u :=
  .inl h.1

theorem not_outdoes_iff : ¬ t.Outdoes u ↔ u.AsGoodAs t := by
  rw [Outdoes, not_or, not_lt, Nat.not_lt, AsGoodAs]

theorem AsGoodAs.not_beats (h : t.AsGoodAs u) : ¬ u.Beats t :=
  fun hbeats => not_outdoes_iff.2 h hbeats.outdoes

theorem AsGoodAs.refl (t : Tour) : t.AsGoodAs t :=
  ⟨le_rfl, Nat.le_refl _⟩

theorem AsGoodAs.trans (htu : t.AsGoodAs u) (huv : u.AsGoodAs v) : t.AsGoodAs v :=
  ⟨htu.1.trans huv.1, huv.2.trans htu.2⟩

/-- Who is better in one respect is as good in the other, unless one of the two trades. -/
theorem Outdoes.asGoodAs_of_not_trades (h : t.Outdoes u) (htu : ¬ t.Trades u) (hut : ¬ u.Trades t) :
    t.AsGoodAs u := by
  rcases h with hcost | hlength
  · exact ⟨hcost.le, Nat.le_of_not_lt fun hshort => htu ⟨hcost, hshort⟩⟩
  · exact ⟨le_of_not_gt fun hdear => hut ⟨hdear, hlength⟩, hlength.le⟩

theorem improves_iff_outdoes (ht : t.feasible = false) (hbest : best.feasible = false) :
    t.improves best = true ↔ t.Outdoes best := by
  simp [improves, ht, hbest, Outdoes, cheaper_iff]

/-- What is known of the tour that is kept of tours none of which is feasible: it outdid the one
that was kept before, no later tour outdoes it, and if no tour trades for another one, it is as good
as each of them. -/
structure Remains (runs : List Tour) (best : Tour) : Prop where
  split : ∃ before after, runs = before ++ best :: after ∧
    (∀ u ∈ after, best.AsGoodAs u) ∧ ∀ u ∈ bestOf? before, best.Outdoes u
  asGoodAs_of_no_trade : (∀ t ∈ runs, ∀ u ∈ runs, ¬ t.Trades u) → ∀ u ∈ runs, best.AsGoodAs u

namespace Remains

theorem single (t : Tour) : Remains [t] t :=
  ⟨⟨[], [], rfl, fun _ hu => absurd hu List.not_mem_nil, fun _ hu => nomatch hu⟩,
    fun _ u hu => List.mem_singleton.1 hu ▸ .refl u⟩

theorem mem (h : Remains runs best) : best ∈ runs := by
  obtain ⟨before, after, rfl, _⟩ := h.split
  exact List.mem_append_right before List.mem_cons_self

theorem concat_of_outdoes (h : Remains runs best) (hbest : bestOf? runs = some best)
    (houtdoes : t.Outdoes best) : Remains (runs ++ [t]) t := by
  have ht : t ∈ runs ++ [t] := List.mem_append_right runs (List.mem_singleton_self t)
  constructor
  case split =>
    refine ⟨runs, [], rfl, fun u hu => absurd hu List.not_mem_nil, fun u hu => ?_⟩
    rw [hbest] at hu
    exact Option.some.inj hu ▸ houtdoes
  case asGoodAs_of_no_trade =>
    intro hno
    have hmem : best ∈ runs ++ [t] := List.mem_append_left _ h.mem
    have hgood := houtdoes.asGoodAs_of_not_trades (hno t ht best hmem) (hno best hmem t ht)
    have hbefore := h.asGoodAs_of_no_trade fun v hv w hw =>
      hno v (List.mem_append_left _ hv) w (List.mem_append_left _ hw)
    refine List.forall_mem_append.2 ⟨fun u hu => hgood.trans (hbefore u hu), ?_⟩
    exact List.forall_mem_singleton.2 (.refl t)

theorem concat_of_asGoodAs (h : Remains runs best) (hgood : best.AsGoodAs t) :
    Remains (runs ++ [t]) best := by
  obtain ⟨before, after, hruns, hafter, hbefore⟩ := h.split
  constructor
  case split =>
    refine ⟨before, after ++ [t], ?_, ?_, hbefore⟩
    · rw [hruns, List.append_assoc, List.cons_append]
    · exact List.forall_mem_append.2 ⟨hafter, List.forall_mem_singleton.2 hgood⟩
  case asGoodAs_of_no_trade =>
    intro hno
    have hold := h.asGoodAs_of_no_trade fun v hv w hw =>
      hno v (List.mem_append_left _ hv) w (List.mem_append_left _ hw)
    exact List.forall_mem_append.2 ⟨hold, List.forall_mem_singleton.2 hgood⟩

end Remains

theorem remains_of_bestOf? (h : bestOf? runs = some best)
    (hruns : ∀ t ∈ runs, t.feasible = false) : Remains runs best := by
  induction runs using List.reverseRecOn generalizing best with
  | nil => cases h
  | append_singleton runs t ih =>
    obtain ⟨hbefore, ht⟩ := List.forall_mem_append.1 hruns
    rw [bestOf?_concat] at h
    obtain rfl := Option.some.inj h
    cases hbest : bestOf? runs with
    | none =>
      obtain rfl := bestOf?_eq_none_iff.1 hbest
      exact .single t
    | some best =>
      have hremains := ih hbest hbefore
      have himproves := improves_iff_outdoes (ht t (List.mem_singleton_self t))
        (hbefore best hremains.mem)
      rw [Option.elim_some]
      split
      · rename_i hyes
        exact hremains.concat_of_outdoes hbest (himproves.1 hyes)
      · rename_i hno
        exact hremains.concat_of_asGoodAs (not_outdoes_iff.1 (mt himproves.2 hno))

/-- A tour that beats the one that is kept comes before it, and was not the one that gave way to
it. -/
theorem Remains.not_beats {before after : List Tour} (hafter : ∀ u ∈ after, best.AsGoodAs u)
    (hbefore : ∀ u ∈ bestOf? before, best.Outdoes u) (hu : u ∈ before ++ best :: after)
    (hbeats : u.Beats best) : 2 ≤ before.length := by
  rcases List.mem_append.1 hu with hu | hu
  · match before, hu, hbefore with
    | [w], hu, hbefore =>
      obtain rfl := List.mem_singleton.1 hu
      have hgood : u.AsGoodAs best := ⟨hbeats.1.le, hbeats.2.le⟩
      exact absurd (hbefore u rfl) (not_outdoes_iff.2 hgood)
    | _ :: _ :: rest, _, _ => exact Nat.le_add_left 2 rest.length
  · rcases List.mem_cons.1 hu with rfl | hu
    · exact absurd hbeats (AsGoodAs.refl u).not_beats
    · exact absurd hbeats (hafter u hu).not_beats

end Tour

namespace MultiStart

variable {H : Type} [Construction H]

/-- A multi-start none of whose parts comes back with a feasible tour keeps one of their tours. No
later tour is cheaper or longer, and neither does the tour beat it that was kept before. A tour that
beats it comes two places or more before it, so that there is none among two tours; and there is
none if no tour is cheaper and shorter than another one, where the tour that is kept is as cheap and
as long as each of them. -/
theorem construct_unbeaten {m : MultiStart H} (hparts : m.parts ≠ [])
    (hruns : ∀ t ∈ m.runs N, t.feasible = false) :
    ∃ before best after, m.runs N = before ++ best :: after ∧
      m.construct N = { best with algorithm := name } ∧
      (∀ u ∈ after, best.AsGoodAs u) ∧ (∀ u ∈ Tour.bestOf? before, ¬ u.Beats best) ∧
      (∀ u ∈ m.runs N, u.Beats best → 2 ≤ before.length) ∧
      ((m.runs N).length ≤ 2 → ∀ u ∈ m.runs N, ¬ u.Beats best) ∧
      ((∀ t ∈ m.runs N, ∀ u ∈ m.runs N, ¬ t.Trades u) →
        ∀ u ∈ m.runs N, best.AsGoodAs u ∧ ¬ u.Beats best) := by
  obtain ⟨best, hbest, heq⟩ := exists_bestOf? hparts N
  have hremains := Tour.remains_of_bestOf? hbest hruns
  obtain ⟨before, after, hsplit, hafter, hbefore⟩ := hremains.split
  have hearly : ∀ u ∈ m.runs N, u.Beats best → 2 ≤ before.length :=
    fun u hu => Tour.Remains.not_beats hafter hbefore (hsplit ▸ hu)
  refine ⟨before, best, after, hsplit, heq, hafter, fun u hu hbeats => ?_, hearly,
    fun hfew u hu hbeats => ?_, fun hno u hu => ?_⟩
  · have hgood : u.AsGoodAs best := ⟨hbeats.1.le, hbeats.2.le⟩
    exact Tour.not_outdoes_iff.2 hgood (hbefore u hu)
  · have htwo := hearly u hu hbeats
    rw [hsplit, List.length_append, List.length_cons] at hfew
    omega
  · have hgood := hremains.asGoodAs_of_no_trade hno u hu
    exact ⟨hgood, hgood.not_beats⟩

end MultiStart

def Network.detours : Network :=
  { Network.withArcs "detours" 5 0
      [⟨0, 1, 1⟩, ⟨0, 3, 1⟩, ⟨0, 4, 1⟩, ⟨1, 2, 1⟩, ⟨2, 3, 1⟩, ⟨3, 0, 1⟩, ⟨4, 3, 9⟩] with
    horizon := 20 }

theorem Network.ofArcs_detours : Network.ofArcs "detours" 5 0
    [⟨0, 1, 1⟩, ⟨0, 3, 1⟩, ⟨0, 4, 1⟩, ⟨1, 2, 1⟩, ⟨2, 3, 1⟩, ⟨3, 0, 1⟩, ⟨4, 3, 9⟩] (some 20) =
      .ok Network.detours := rfl

theorem Network.chooseNext_three {σ : Type} (choose : Chooser σ) (s : σ) (a b c : Edge) :
    chooseNext choose s [a, b, c] =
      some ([a, b, c][(choose 3 (by decide) s).1].target, (choose 3 (by decide) s).2) :=
  rfl

def Network.detour : Fin 3 → List Nat
  | 0 => [0, 1, 2, 3]
  | 1 => [0, 3]
  | 2 => [0, 4, 3]

theorem Network.nearestWalk?_detours {σ : Type} (choose : Chooser σ) (s : σ) :
    detours.nearestWalk? choose s = some (detour (choose 3 (by decide) s).1) := by
  have hfirst : detours.candidates 0 [0] 0 = [⟨0, 0, 1, 1⟩, ⟨1, 0, 3, 1⟩, ⟨2, 0, 4, 1⟩] :=
    List.mergeSort_of_pairwise (by decide)
  change (detours.extendWalk? choose 4 0 [] 0 s).map List.reverse = _
  rw [extendWalk?, candidates?_eq_some_iff.2 ⟨by decide +kernel, hfirst⟩, Option.bind_eq_bind,
    Option.bind_some, chooseNext_three]
  generalize choose 3 (by decide) s = chosen
  obtain ⟨i, s'⟩ := chosen
  dsimp only
  have hcases : ∀ i : Fin 3, i = 0 ∨ i = 1 ∨ i = 2 := by decide
  rcases hcases i with rfl | rfl | rfl <;> cbv

theorem NearestNeighbor.construct_deterministic_detours :
    deterministic.construct Network.detours =
      ⟨[0, 1, 2, 3], some 4, 4, false, "NearestNeighbor"⟩ := by
  rw [construct, walk?, Network.nearestWalk?_detours]
  rfl

theorem NearestNeighbor.construct_randomized_detours {seed : UInt64} {i : Fin 3}
    (hi : ((Random.Generator.seeded seed).below 3 (by decide) patience).1 = i) :
    (randomized seed).construct Network.detours =
      Tour.evaluate Network.detours (Network.detour i) "NearestNeighbor-Randomized" := by
  rw [construct, walk?, Network.nearestWalk?_detours, hi]
  rfl

theorem NearestNeighbor.construct_first_detours : (randomized 1).construct Network.detours =
    ⟨[0, 3], some 2, 2, false, "NearestNeighbor-Randomized"⟩ := by
  have hfirst : ((Random.Generator.seeded 1).below 3 (by decide) patience).1 = 1 := by
    decide +kernel
  exact construct_randomized_detours hfirst

theorem NearestNeighbor.construct_second_detours : (randomized 2).construct Network.detours =
    ⟨[0, 4, 3], some 11, 11, false, "NearestNeighbor-Randomized"⟩ := by
  have hsecond : ((Random.Generator.seeded 2).below 3 (by decide) patience).1 = 2 := by
    decide +kernel
  exact construct_randomized_detours hsecond

namespace MultiStart

/-- Of two tours the cheaper and shorter one is kept, which the other one does not beat. -/
theorem construct_unbeaten_detours :
    (⟨[.deterministic, .randomized 1]⟩ : MultiStart).parts ≠ [] ∧
    (∀ t ∈ (⟨[.deterministic, .randomized 1]⟩ : MultiStart).runs Network.detours,
      t.feasible = false) ∧
    ∃ best, (⟨[.deterministic, .randomized 1]⟩ : MultiStart).construct Network.detours =
        { best with algorithm := name } ∧
      ∀ u ∈ (⟨[.deterministic, .randomized 1]⟩ : MultiStart).runs Network.detours,
        ¬ u.Beats best := by
  have hparts : (⟨[.deterministic, .randomized 1]⟩ : MultiStart).parts ≠ [] :=
    List.cons_ne_nil _ _
  have hruns : ∀ t ∈ (⟨[.deterministic, .randomized 1]⟩ : MultiStart).runs Network.detours,
      t.feasible = false :=
    List.forall_mem_cons.2 ⟨congrArg Tour.feasible NearestNeighbor.construct_deterministic_detours,
      List.forall_mem_singleton.2 (congrArg Tour.feasible NearestNeighbor.construct_first_detours)⟩
  obtain ⟨_, best, _, _, heq, _, _, _, hfew, _⟩ := construct_unbeaten hparts hruns
  exact ⟨hparts, hruns, best, heq, hfew (Nat.le_refl 2)⟩

theorem runs_detours : (seeded 1 2).runs Network.detours =
    [⟨[0, 1, 2, 3], some 4, 4, false, "NearestNeighbor"⟩,
      ⟨[0, 3], some 2, 2, false, "NearestNeighbor-Randomized"⟩,
      ⟨[0, 4, 3], some 11, 11, false, "NearestNeighbor-Randomized"⟩] := by
  have hparts : (seeded 1 2).parts = [.deterministic, .randomized 1, .randomized 2] := by decide
  rw [runs, hparts, ← NearestNeighbor.construct_deterministic_detours,
    ← NearestNeighbor.construct_first_detours, ← NearestNeighbor.construct_second_detours]
  rfl

/-- Of the three tours the last one is kept, which takes longer than the one before and is longer,
although the first one is cheaper and longer than that. -/
theorem construct_beaten_detours : Network.detours.WellFormed ∧
    (seeded 1 2).construct? Network.detours =
      some ⟨[0, 4, 3], some 11, 11, false, "MultiStart"⟩ ∧
    (∀ t ∈ (seeded 1 2).runs Network.detours, t.feasible = false) ∧
    ∃ u ∈ (seeded 1 2).runs Network.detours, u.Beats ((seeded 1 2).construct Network.detours) := by
  have hN := Network.wellFormed_of_ofArcs Network.ofArcs_detours
  have hroom : Network.detours.LeavesRoom := by decide +kernel
  have hconstruct : (seeded 1 2).construct Network.detours =
      ⟨[0, 4, 3], some 11, 11, false, "MultiStart"⟩ := by
    rw [construct, runs_detours]
    rfl
  have hparts : (seeded 1 2).parts ≠ [] := List.cons_ne_nil _ _
  have hanswers : ∀ part ∈ (seeded 1 2).parts,
      ∃ T, Construction.construct? part Network.detours = some T := by
    intro part _
    obtain ⟨_, _, hpart⟩ := part.exists_construct? hN (hroom.keepsTime hN)
    exact ⟨_, hpart⟩
  rw [construct?_eq hparts hanswers, hconstruct, runs_detours]
  refine ⟨hN, rfl, by decide, _, List.mem_cons_self, ?_, by decide⟩
  exact WithTop.coe_lt_coe.2 (by decide)

end MultiStart

end TourPricing
