import TourPricing.Proofs.LawfulScalar
import TourPricing.Proofs.Search.Soundness

namespace TourPricing

variable {α : Type} [Scalar α]

def Network.FiniteCosts (N : Network) (cost : Nat → α) : Prop :=
  ∀ e ∈ N.edges, Scalar.isFinite (cost e.id) = true

theorem Network.finiteCosts (N : Network) (cost : Nat → Rat) : N.FiniteCosts cost :=
  fun _ _ => rfl

theorem Network.FiniteCosts.of_leg {N : Network} {cost : Nat → α} {horizon : Nat} {s : Stop}
    {leg : Leg} (hfin : N.FiniteCosts cost) (h : N.WellFormed) (hl : leg ∈ N.legsFrom horizon s) :
    Scalar.isFinite (cost leg.edge) = true := by
  obtain ⟨_, e, he, _, rfl, _⟩ := h.mem_legsFrom.1 hl
  exact hfin e he

/-- A fold passes through a state at every element of the list, and what follows keeps to any
preorder to which the single steps keep. -/
theorem foldl_passes {β γ : Type} {f : β → γ → β} {P : β → Prop} {R : β → β → Prop} {l : List γ}
    (refl : ∀ b, R b b) (trans : ∀ {a b c}, R a b → R b c → R a c)
    (step : ∀ c ∈ l, ∀ b, P b → P (f b c) ∧ R b (f b c)) {b : β} (h : P b) :
    R b (l.foldl f b) ∧ ∀ c ∈ l, ∃ mid, P mid ∧ R (f mid c) (l.foldl f b) := by
  induction l generalizing b with
  | nil => exact ⟨refl b, fun c hc => nomatch hc⟩
  | cons a rest ih =>
    obtain ⟨hP, hR⟩ := step a List.mem_cons_self b h
    obtain ⟨hrest, hmid⟩ := ih (fun c hc => step c (List.mem_cons_of_mem _ hc)) hP
    refine ⟨trans hR hrest, fun c hc => ?_⟩
    rcases List.mem_cons.1 hc with hc | hc
    · exact ⟨b, h, hc ▸ hrest⟩
    · exact hmid c hc

/-- As long as the limit costs no label, the bucket keeps a label that covers the new one, and one
for every label that it covered before. -/
theorem Bucket.insert_covers {rule : VisitRule} {limit : Nat} {bucket : List (Label α)}
    {x : Label α} (hx : x.covers rule x = true)
    (hcut : (Bucket.insert rule limit bucket x).2 = false) :
    (∃ z ∈ (Bucket.insert rule limit bucket x).1, z.covers rule x = true) ∧
      ∀ old ∈ bucket, old ∈ (Bucket.insert rule limit bucket x).1 ∨
        x.covers rule old = true ∧ x ∈ (Bucket.insert rule limit bucket x).1 := by
  simp only [Bucket.insert] at hcut ⊢
  split
  · rename_i hany
    obtain ⟨z, hz, hcov⟩ := List.any_eq_true.1 hany
    exact ⟨⟨z, hz, hcov⟩, fun old hold => .inl hold⟩
  · rename_i hany
    rw [if_neg hany] at hcut
    split
    · rename_i hlimit
      rw [if_pos hlimit] at hcut
      cases hcut
    · have hself : x ∈ bucket.filter (fun old => !x.covers rule old) ++ [x] :=
        List.mem_append_right _ List.mem_cons_self
      refine ⟨⟨x, hself, hx⟩, fun old hold => ?_⟩
      cases hcov : x.covers rule old with
      | true => exact .inr ⟨rfl, hself⟩
      | false =>
        have hkept : old ∈ bucket.filter fun old => !x.covers rule old :=
          List.mem_filter.2 ⟨hold, by rw [hcov]; rfl⟩
        exact .inl (List.mem_append_left _ hkept)

namespace Search

variable {S : Search α} {legs others : List Leg} {leg : Leg} {s t : Stop}
  {F : Frontier (List (Label α))} {progress : Progress α}

theorem covers_iff {rule : VisitRule} {x y : Label α} :
    x.covers rule y = true ↔ x.cost ≤ y.cost ∧ rule.dominates x.trail y.trail = true := by
  rw [Label.covers, Bool.and_eq_true, decide_eq_true_eq]

omit [Scalar α] in
theorem leaves_trailAfter (h : S.expansion.network.WellFormed) (w : S.Walk legs s) :
    S.rule.Leaves S.expansion.network.dimension (S.trailAfter legs) :=
  ⟨_, List.cons_ne_nil _ _, w.visits_lt h, rfl⟩

theorem labelOf_snoc_cost (legs : List Leg) (leg : Leg) :
    (S.labelOf (legs ++ [leg])).cost = (S.labelOf legs).cost + S.cost leg.edge := by
  rw [← extend_labelOf]
  rfl

theorem labelOf_snoc_trail (legs : List Leg) (leg : Leg) :
    (S.labelOf (legs ++ [leg])).trail =
      (S.labelOf legs).trail.visit S.rule.memory leg.head.vertex := by
  rw [← extend_labelOf]
  rfl

section

variable [LawfulScalar α] (h : S.expansion.network.WellFormed)
  (hfin : S.expansion.network.FiniteCosts S.cost)
  (hd : S.rule.IsDominance S.expansion.network.dimension)

include h hfin

theorem labelOf_cost_le_self (w : S.Walk legs s) :
    (S.labelOf legs).cost ≤ (S.labelOf legs).cost := by
  induction w with
  | start => exact LawfulScalar.le_refl_of_isFinite LawfulScalar.isFinite_zero
  | step _ hl _ ih =>
    rw [labelOf_snoc_cost]
    exact LawfulScalar.add_le_add_right (hfin.of_leg h hl) ih

include hd

theorem covers_refl (w : S.Walk legs s) :
    (S.labelOf legs).covers S.rule (S.labelOf legs) = true :=
  covers_iff.2 ⟨labelOf_cost_le_self h hfin w, hd.refl (leaves_trailAfter h w)⟩

omit hfin in

theorem covers_trans {u : Stop} {middle : List Leg} (w : S.Walk legs s) (w' : S.Walk middle t)
    (w'' : S.Walk others u) (hlm : (S.labelOf legs).covers S.rule (S.labelOf middle) = true)
    (hmo : (S.labelOf middle).covers S.rule (S.labelOf others) = true) :
    (S.labelOf legs).covers S.rule (S.labelOf others) = true := by
  obtain ⟨hcost, htr⟩ := covers_iff.1 hlm
  obtain ⟨hcost', htr'⟩ := covers_iff.1 hmo
  have htrail := hd.trans (leaves_trailAfter h w) (leaves_trailAfter h w')
    (leaves_trailAfter h w'') htr htr'
  exact covers_iff.2 ⟨LawfulScalar.le_trans hcost hcost', htrail⟩

/-- A walk that covers another one may take every leg that the other one may take, and covers it
still after that leg. -/
theorem covers_step (w : S.Walk legs s) (w' : S.Walk others s)
    (hc : (S.labelOf legs).covers S.rule (S.labelOf others) = true)
    (hl : leg ∈ S.expansion.outgoing s) (hm : S.MayTake others leg) : S.MayTake legs leg ∧
      (S.labelOf (legs ++ [leg])).covers S.rule (S.labelOf (others ++ [leg])) = true := by
  obtain ⟨hcost, htr⟩ := covers_iff.1 hc
  have ha := leaves_trailAfter h w
  have hb := leaves_trailAfter h w'
  have hv := (h.head_within hl).1
  refine ⟨⟨hm.1, hm.2.imp_right (hd.admits ha hb htr _ hv)⟩, covers_iff.2 ⟨?_, ?_⟩⟩
  · rw [labelOf_snoc_cost, labelOf_snoc_cost]
    exact LawfulScalar.add_le_add_right (hfin.of_leg h hl) hcost
  · rw [labelOf_snoc_trail, labelOf_snoc_trail]
    exact hd.visit ha hb htr _ hv

end

variable (S) in
def Covered (bucket : List (Label α)) (legs : List Leg) : Prop :=
  ∃ x ∈ bucket, x.covers S.rule (S.labelOf legs) = true

variable (S) in
def Waits (F : Frontier (List (Label α))) (legs : List Leg) (s : Stop) : Prop :=
  S.Covered ((F.get? s).getD []) legs

/-- What is lost of a search from one state to a later one: no closed label, no cost that was looked
at, and while the limit costs no label, no covered walk. -/
structure Keeps (S : Search α) (state later : Frontier (List (Label α)) × Progress α) :
    Prop where
  exhaustive : later.2.exhaustive = true → state.2.exhaustive = true
  closed : later.2.closed = state.2.closed
  looked : ∀ c, (∃ m ∈ state.2.leastEdgeCost, m ≤ c) → ∃ m ∈ later.2.leastEdgeCost, m ≤ c
  waits : later.2.exhaustive = true → ∀ legs s, S.Walk legs s → S.Waits state.1 legs s →
    S.Waits later.1 legs s

theorem Keeps.refl (state : Frontier (List (Label α)) × Progress α) : S.Keeps state state :=
  ⟨id, rfl, fun _ hc => hc, fun _ _ _ _ hw => hw⟩

theorem Keeps.trans {a b c : Frontier (List (Label α)) × Progress α} (hab : S.Keeps a b)
    (hbc : S.Keeps b c) : S.Keeps a c where
  exhaustive he := hab.exhaustive (hbc.exhaustive he)
  closed := hbc.closed.trans hab.closed
  looked x hx := hbc.looked x (hab.looked x hx)
  waits he legs s w hw := hbc.waits he legs s w (hab.waits (hbc.exhaustive he) legs s w hw)

theorem Tracks.holds (ht : S.Tracks (F, progress)) (s : Stop) : S.Holds s ((F.get? s).getD []) := by
  cases hb : F.get? s with
  | none => exact fun x hx => nomatch hx
  | some bucket => exact ht.waiting _ (Frontier.mem_of_get? hb)

section

variable [LawfulScalar α] (h : S.expansion.network.WellFormed)
  (hfin : S.expansion.network.FiniteCosts S.cost)
  (hd : S.rule.IsDominance S.expansion.network.dimension)

include h hfin hd

theorem covered_offer {bucket : List (Label α)} (hb : S.Holds s bucket) (w : S.Walk legs s)
    (hcut : (S.offer bucket legs s).2 = false) (w' : S.Walk others s)
    (hc : S.Covered (S.labelOf legs :: bucket) others) :
    S.Covered (S.offer bucket legs s).1 others := by
  obtain ⟨x, hx, hc⟩ := hc
  rw [offer] at hcut ⊢
  split
  · refine ⟨x, ?_, hc⟩
    rcases List.mem_cons.1 hx with hx | hx
    · exact List.mem_append_right _ (List.mem_singleton.2 hx)
    · exact List.mem_append_left _ hx
  · rename_i hne
    rw [if_neg hne] at hcut
    obtain ⟨⟨z, hz, hzc⟩, hold⟩ := Bucket.insert_covers (covers_refl h hfin hd w) hcut
    rcases List.mem_cons.1 hx with rfl | hx
    · refine ⟨z, hz, ?_⟩
      rcases Bucket.mem_insert hz with hzb | rfl
      · obtain ⟨middle, wz, rfl⟩ := hb z hzb
        exact covers_trans h hd wz w w' hzc hc
      · exact hc
    · rcases hold x hx with hkept | ⟨hcov, hmem⟩
      · exact ⟨x, hkept, hc⟩
      · obtain ⟨middle, wx, rfl⟩ := hb x hx
        exact ⟨_, hmem, covers_trans h hd w wx w' hcov hc⟩

theorem extendBy_keeps {state : Frontier (List (Label α)) × Progress α} (ht : S.Tracks state)
    (w : S.Walk legs s) (hl : leg ∈ S.expansion.outgoing s) :
    S.Keeps state (S.extendBy (S.labelOf legs) state leg) := by
  obtain ⟨F, progress⟩ := state
  by_cases hm : S.MayTake legs leg
  · rw [extendBy_of_mayTake hm]
    refine ⟨fun he => (Bool.and_eq_true_iff.1 he).1, rfl,
      fun c hc => Scalar.exists_least_le_of_le hc _, fun he others t w' hw => ?_⟩
    have hcut := Bool.eq_false_of_not_eq_true' (Bool.and_eq_true_iff.1 he).2
    by_cases hs : t = leg.head
    · subst hs
      rw [Waits, Frontier.get?_set_self]
      obtain ⟨x, hx, hc⟩ := hw
      exact covered_offer h hfin hd (ht.holds _) (w.step hl hm) hcut w'
        ⟨x, List.mem_cons_of_mem _ hx, hc⟩
    · rw [Waits, Frontier.get?_set_of_ne F _ hs]
      exact hw
  · cases ha : S.allows leg with
    | false =>
      rw [extendBy_of_not_allows ha]
      exact .refl _
    | true =>
      rw [extendBy_of_not_mayTake ha hm]
      exact ⟨id, rfl, fun c hc => Scalar.exists_least_le_of_le hc _, fun _ _ _ _ hw => hw⟩

omit hd in
theorem extendBy_looks {state : Frontier (List (Label α)) × Progress α}
    (hl : leg ∈ S.expansion.outgoing s) (ha : S.allows leg = true) :
    ∃ m ∈ (S.extendBy (S.labelOf legs) state leg).2.leastEdgeCost, m ≤ S.cost leg.edge := by
  obtain ⟨F, progress⟩ := state
  have hcost := LawfulScalar.le_refl_of_isFinite (hfin.of_leg h hl)
  by_cases hm : S.MayTake legs leg
  · rw [extendBy_of_mayTake hm]
    exact Scalar.exists_least_le _ hcost
  · rw [extendBy_of_not_mayTake ha hm]
    exact Scalar.exists_least_le _ hcost

/-- Extending the label of a walk leaves a label for every walk that it covers, gone on by the same
leg. -/
theorem extendBy_reaches {state : Frontier (List (Label α)) × Progress α} (ht : S.Tracks state)
    (w : S.Walk legs s) (w' : S.Walk others s)
    (hc : (S.labelOf legs).covers S.rule (S.labelOf others) = true)
    (hl : leg ∈ S.expansion.outgoing s) (hm : S.MayTake others leg)
    (he : (S.extendBy (S.labelOf legs) state leg).2.exhaustive = true) :
    S.Waits (S.extendBy (S.labelOf legs) state leg).1 (others ++ [leg]) leg.head := by
  obtain ⟨F, progress⟩ := state
  obtain ⟨hm', hc'⟩ := covers_step h hfin hd w w' hc hl hm
  rw [extendBy_of_mayTake hm'] at he ⊢
  have hcut := Bool.eq_false_of_not_eq_true' (Bool.and_eq_true_iff.1 he).2
  rw [Waits, Frontier.get?_set_self]
  exact covered_offer h hfin hd (ht.holds _) (w.step hl hm') hcut (w'.step hl hm)
    ⟨_, List.mem_cons_self, hc'⟩

/-- Settling a stop where walks go on extends each of its labels by each leg, and what one extension
leaves is kept by those after it. -/
theorem settle_passes {bucket : List (Label α)} (hn : S.expansion.network.isTerminal s = false)
    (hb : S.Holds s bucket) (ht : S.Tracks (F, progress)) :
    S.Keeps (F, progress) (S.settle s bucket F progress) ∧
      ∀ x ∈ bucket, ∀ leg ∈ S.expansion.outgoing s, ∃ mid, S.Tracks mid ∧
        S.Keeps (S.extendBy x mid leg) (S.settle s bucket F progress) := by
  rw [settle_eq_foldl hn]
  have hpass := foldl_passes (R := S.Keeps) Keeps.refl Keeps.trans
    (f := fun state p => S.extendBy p.1 state p.2) (P := S.Tracks)
    (l := bucket.product (S.expansion.outgoing s)) (fun p hp mid hmid => by
      obtain ⟨hx, hl⟩ := List.mem_product.1 hp
      obtain ⟨legs, w, he⟩ := hb p.1 hx
      rw [he]
      exact ⟨hmid.extendBy w hl, extendBy_keeps h hfin hd hmid w hl⟩) ht
  exact ⟨hpass.1, fun x hx leg hl => hpass.2 (x, leg) (List.mem_product.2 ⟨hx, hl⟩)⟩

end

/-- A walk is settled: it is closed at no more cost, or every leg that goes on from it was looked
at. -/
structure Settled (S : Search α) (progress : Progress α) (legs : List Leg) (s : Stop) :
    Prop where
  closed : S.expansion.network.isTerminal s = true →
    ∃ x ∈ progress.closed, x.cost ≤ (Route.mk legs).cost S.cost
  looked : S.expansion.network.isTerminal s = false → ∀ leg ∈ S.expansion.outgoing s,
    S.allows leg = true → ∃ m ∈ progress.leastEdgeCost, m ≤ S.cost leg.edge

variable (S) in
/-- A walk is still pursued: some beginning of it waits, or it is settled. -/
def Pursued (state : Frontier (List (Label α)) × Progress α) (legs : List Leg) (s : Stop) :
    Prop :=
  (∃ before after t, legs = before ++ after ∧ S.Walk before t ∧ S.Waits state.1 before t) ∨
    S.Settled state.2 legs s

theorem Keeps.pursued {state later : Frontier (List (Label α)) × Progress α}
    (hk : S.Keeps state later) (he : later.2.exhaustive = true) (hp : S.Pursued state legs s) :
    S.Pursued later legs s := by
  rcases hp with ⟨before, after, t, hlegs, w, hw⟩ | hs
  · exact .inl ⟨before, after, t, hlegs, w, hk.waits he before t w hw⟩
  · refine .inr ⟨fun ht => ?_, fun hn leg hl ha => hk.looked _ (hs.looked hn leg hl ha)⟩
    rw [hk.closed]
    exact hs.closed ht

theorem waits_cons_of_ne {bucket : List (Label α)} {rest : List (Stop × List (Label α))}
    (hne : t ≠ s) (hw : S.Waits ⟨(s, bucket) :: rest⟩ legs t) : S.Waits ⟨rest⟩ legs t := by
  rwa [Waits, Frontier.get?_cons, if_neg hne] at hw

theorem waits_cons_self {bucket : List (Label α)} {rest : List (Stop × List (Label α))}
    (hw : S.Waits ⟨(s, bucket) :: rest⟩ legs s) : S.Covered bucket legs := by
  rwa [Waits, Frontier.get?_cons, if_pos rfl] at hw

theorem pursued_settle_terminal {bucket : List (Label α)}
    {rest : List (Stop × List (Label α))} (h : S.expansion.network.WellFormed)
    (ht : S.expansion.network.isTerminal s = true) (w : S.Walk legs t)
    (hp : S.Pursued (⟨(s, bucket) :: rest⟩, progress) legs t) :
    S.Pursued (S.settle s bucket ⟨rest⟩ progress) legs t := by
  rw [settle_of_terminal ht]
  rcases hp with ⟨before, after, u, rfl, wb, hw⟩ | hs
  · by_cases hu : u = s
    · subst hu
      cases after with
      | nil =>
        rw [List.append_nil] at w ⊢
        obtain rfl := wb.unique w
        obtain ⟨x, hx, hc⟩ := waits_cons_self hw
        refine .inr ⟨fun _ => ⟨x, List.mem_append_right _ hx, (covers_iff.1 hc).1⟩, fun hn => ?_⟩
        rw [ht] at hn
        cases hn
      | cons leg after =>
        obtain ⟨v, wv, hl, _⟩ := w.split
        rw [wv.unique wb] at hl
        rw [h.not_terminal hl] at ht
        cases ht
    · exact .inl ⟨before, after, u, rfl, wb, waits_cons_of_ne hu hw⟩
  · refine .inr ⟨fun hts => ?_, hs.looked⟩
    obtain ⟨x, hx, hle⟩ := hs.closed hts
    exact ⟨x, List.mem_append_left _ hx, hle⟩

theorem pursued_settle {bucket : List (Label α)} {rest : List (Stop × List (Label α))}
    [LawfulScalar α] (h : S.expansion.network.WellFormed)
    (hfin : S.expansion.network.FiniteCosts S.cost)
    (hd : S.rule.IsDominance S.expansion.network.dimension)
    (htr : S.Tracks (⟨(s, bucket) :: rest⟩, progress))
    (hn : S.expansion.network.isTerminal s = false)
    (he : (S.settle s bucket ⟨rest⟩ progress).2.exhaustive = true) (w : S.Walk legs t)
    (hp : S.Pursued (⟨(s, bucket) :: rest⟩, progress) legs t) :
    S.Pursued (S.settle s bucket ⟨rest⟩ progress) legs t := by
  obtain ⟨hb, hrest⟩ := htr.rest
  obtain ⟨hkeeps, hpass⟩ := settle_passes h hfin hd hn hb hrest
  rcases hp with ⟨before, after, u, rfl, wb, hw⟩ | hs
  · by_cases hu : u = s
    · subst hu
      obtain ⟨x, hx, hc⟩ := waits_cons_self hw
      obtain ⟨others, wx, rfl⟩ := hb x hx
      cases after with
      | nil =>
        rw [List.append_nil] at w ⊢
        obtain rfl := wb.unique w
        refine .inr ⟨fun ht => ?_, fun _ leg hl ha => ?_⟩
        · rw [hn] at ht
          cases ht
        · obtain ⟨mid, _, hk⟩ := hpass _ hx leg hl
          exact hk.looked _ (extendBy_looks h hfin hl ha)
      | cons leg after =>
        obtain ⟨v, wv, hl, hm⟩ := w.split
        obtain rfl := wv.unique wb
        obtain ⟨mid, hmid, hk⟩ := hpass _ hx leg hl
        have hwait := extendBy_reaches h hfin hd hmid wx wb hc hl hm (hk.exhaustive he)
        refine .inl ⟨before ++ [leg], after, leg.head, ?_, wb.step hl hm, ?_⟩
        · rw [List.append_assoc, List.singleton_append]
        · exact hk.waits he _ _ (wb.step hl hm) hwait
    · exact hkeeps.pursued he (.inl ⟨before, after, u, rfl, wb, waits_cons_of_ne hu hw⟩)
  · exact hkeeps.pursued he (.inr hs)

/-- An exhaustive search settles every walk that may be taken. -/
theorem settled_of_exhaustive [LawfulScalar α] (h : S.expansion.network.WellFormed)
    (hfin : S.expansion.network.FiniteCosts S.cost)
    (hd : S.rule.IsDominance S.expansion.network.dimension) (he : S.explore.exhaustive = true)
    (w : S.Walk legs s) : S.Settled S.explore legs s := by
  let I : Frontier (List (Label α)) × Progress α → Prop := fun state =>
    state.2.exhaustive = true → ∀ legs s, S.Walk legs s → S.Pursued state legs s
  have hstart : I (.single S.expansion.network.start
      [Label.start S.expansion.network.dimension S.expansion.network.source],
      ⟨[], none, true⟩) := by
    intro _ legs s _
    refine .inl ⟨[], legs, S.expansion.network.start, rfl, .start, S.labelOf [], ?_,
      covers_refl h hfin hd .start⟩
    simp [Frontier.single, Frontier.get?, labelOf_nil]
  obtain ⟨F, hF, _, hI⟩ := explore_induction h hstart fun s bucket rest progress htr hp he => by
    cases hn : S.expansion.network.isTerminal s with
    | true =>
      have he' := he
      rw [settle_of_terminal hn] at he'
      exact fun legs t w => pursued_settle_terminal h hn w (hp he' legs t w)
    | false =>
      have he' := (settle_passes h hfin hd hn htr.rest.1 htr.rest.2).1.exhaustive he
      exact fun legs t w => pursued_settle h hfin hd htr hn he w (hp he' legs t w)
  rcases hI he legs s w with ⟨before, after, t, _, _, x, hx, _⟩ | hs
  · rw [Frontier.get?, hF] at hx
    cases hx
  · exact hs

end Search

end TourPricing
