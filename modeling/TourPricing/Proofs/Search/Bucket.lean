import Mathlib.Data.List.Perm.Basic
import TourPricing.Proofs.Search.Coverage

namespace TourPricing

/-- On the trails with `P`, the dominance of a rule is a preorder. -/
structure VisitRule.IsPreorderOn (rule : VisitRule) (P : Trail → Prop) : Prop where
  refl : ∀ {a}, P a → rule.dominates a a = true
  trans : ∀ {a b c}, P a → P b → P c → rule.dominates a b = true → rule.dominates b c = true →
    rule.dominates a c = true

theorem VisitRule.IsDominance.isPreorderOn {rule : VisitRule} {n : Nat}
    (h : rule.IsDominance n) : rule.IsPreorderOn (rule.Leaves n) :=
  ⟨h.refl, h.trans⟩

namespace Bucket

theorem swapRemove_concat {β : Type} (init : List β) (last : β) (position : Nat) :
    swapRemove (init ++ [last]) position = ((init ++ [last]).set position last).dropLast := by
  rw [swapRemove, List.getLast?_concat]

theorem perm_swapRemove {β : Type} {l : List β} {position : Nat} (h : position < l.length) :
    l.Perm (l[position] :: swapRemove l position) := by
  rcases List.eq_nil_or_concat l with rfl | ⟨init, last, rfl⟩
  · cases h
  · simp only [List.concat_eq_append] at h ⊢
    rw [swapRemove_concat]
    by_cases hlast : position < init.length
    · rw [List.set_append_left _ _ hlast, List.dropLast_concat, List.getElem_append_left hlast]
      calc List.Perm (init ++ [last]) (last :: init) := List.perm_append_singleton last init
        List.Perm _ (last :: init[position] :: init.eraseIdx position) :=
          (List.getElem_cons_eraseIdx_perm hlast).symm.cons last
        List.Perm _ (init[position] :: last :: init.eraseIdx position) := .swap _ _ _
        List.Perm _ (init[position] :: init.set position last) :=
          (List.set_perm_cons_eraseIdx hlast last).symm.cons _
    · have hposition : position = init.length := by
        rw [List.length_append, List.length_singleton] at h
        omega
      subst hposition
      rw [List.set_append_right _ _ (Nat.le_refl _), Nat.sub_self, List.set_cons_zero,
        List.dropLast_concat, List.getElem_concat_length rfl]
      exact List.perm_append_singleton last init

section

variable {α : Type} [Scalar α] {rule : VisitRule} {limit : Nat} {bucket : List (Label α)}
  {x y : Label α}

theorem rankLE_refl (x : Label α) : x.rankLE x = true := by
  have htotal := Scalar.rankLE_total x.cost x.cost
  rwa [Bool.or_self] at htotal

/-- With the labels before position `next` seen, of which `best` is a costliest one, the position
that is found is that of a costliest label of all. -/
theorem exists_costliestFrom {best : Label α} {position next : Nat} {seen rest : List (Label α)}
    (hnext : seen.length = next) (hbest : seen[position]? = some best)
    (hmax : ∀ y ∈ seen, y.rankLE best = true) :
    ∃ z, (seen ++ rest)[costliestFrom best position next rest]? = some z ∧
      ∀ y ∈ seen ++ rest, y.rankLE z = true := by
  induction rest generalizing best position next seen with
  | nil =>
    rw [List.append_nil]
    exact ⟨best, hbest, hmax⟩
  | cons label rest ih =>
    have happend : seen ++ label :: rest = (seen ++ [label]) ++ rest := by simp
    have hlength : (seen ++ [label]).length = next + 1 := by
      rw [List.length_append, hnext, List.length_singleton]
    rw [costliestFrom, happend]
    split
    · rename_i hle
      apply ih hlength
      · rw [← hnext, List.getElem?_concat_length]
      · intro y hy
        rcases List.mem_append.1 hy with hy | hy
        · exact Scalar.rankLE_trans _ _ _ (hmax y hy) hle
        · exact List.mem_singleton.1 hy ▸ rankLE_refl label
    · rename_i hle
      have hlabel : label.rankLE best = true := by
        have htotal := Scalar.rankLE_total best.cost label.cost
        rw [Bool.or_eq_true] at htotal
        exact htotal.resolve_left hle
      apply ih hlength
      · rw [List.getElem?_append_left (List.getElem?_eq_some_iff.1 hbest).1, hbest]
      · intro y hy
        rcases List.mem_append.1 hy with hy | hy
        · exact hmax y hy
        · exact List.mem_singleton.1 hy ▸ hlabel

theorem exists_removed {l : List (Label α)} (h : l ≠ []) : ∃ removed,
    l.Perm (removed :: swapRemove l (costliest l)) ∧ ∀ y ∈ l, y.rankLE removed = true := by
  cases l with
  | nil => exact absurd rfl h
  | cons best rest =>
    obtain ⟨removed, hremoved, hmax⟩ : ∃ z,
        ([best] ++ rest)[costliestFrom best 0 1 rest]? = some z ∧
          ∀ y ∈ [best] ++ rest, y.rankLE z = true :=
      exists_costliestFrom rfl rfl fun y hy => List.mem_singleton.1 hy ▸ rankLE_refl best
    obtain ⟨hlt, rfl⟩ := List.getElem?_eq_some_iff.1 hremoved
    exact ⟨_, perm_swapRemove hlt, hmax⟩

/-- No label of a bucket makes another one needless. -/
def Sparse (rule : VisitRule) (bucket : List (Label α)) : Prop :=
  bucket.Pairwise fun a b => a.covers rule b = false ∧ b.covers rule a = false

/-- What is left of a bucket once a label is taken in: those that it makes needless are gone. -/
def receive (rule : VisitRule) (bucket : List (Label α)) (x : Label α) : List (Label α) :=
  bucket.filter (fun old => !x.covers rule old) ++ [x]

/-- All that can become of a bucket to which a label is offered, and whether the limit costs a
label. -/
inductive Outcome (rule : VisitRule) (limit : Nat) (bucket : List (Label α)) (x : Label α) :
    List (Label α) → Bool → Prop
  | needless {z : Label α} : z ∈ bucket → z.covers rule x = true →
    Outcome rule limit bucket x bucket false
  | taken : (∀ z ∈ bucket, z.covers rule x = false) →
    (receive rule bucket x).length ≤ max limit 1 →
    Outcome rule limit bucket x (receive rule bucket x) false
  | cut {removed : Label α} {rest : List (Label α)} : (∀ z ∈ bucket, z.covers rule x = false) →
    max limit 1 < (receive rule bucket x).length →
    (receive rule bucket x).Perm (removed :: rest) →
    (∀ y ∈ receive rule bucket x, y.rankLE removed = true) →
    Outcome rule limit bucket x rest true

theorem outcome_insert (rule : VisitRule) (limit : Nat) (bucket : List (Label α)) (x : Label α) :
    Outcome rule limit bucket x (insert rule limit bucket x).1
      (insert rule limit bucket x).2 := by
  simp only [insert]
  split
  · rename_i hany
    obtain ⟨z, hz, hcovers⟩ := List.any_eq_true.1 hany
    exact .needless hz hcovers
  · rename_i hany
    have hnone : ∀ z ∈ bucket, z.covers rule x = false := fun z hz =>
      Bool.eq_false_iff.2 fun hcovers => hany (List.any_eq_true.2 ⟨z, hz, hcovers⟩)
    split
    · rename_i hlimit
      obtain ⟨removed, hperm, hmax⟩ :=
        exists_removed (List.concat_ne_nil x (bucket.filter fun old => !x.covers rule old))
      exact .cut hnone hlimit hperm hmax
    · rename_i hlimit
      exact .taken hnone (Nat.le_of_not_lt hlimit)

theorem length_receive_le (rule : VisitRule) (bucket : List (Label α)) (x : Label α) :
    (receive rule bucket x).length ≤ bucket.length + 1 := by
  rw [receive, List.length_append, List.length_singleton]
  exact Nat.succ_le_succ (List.length_filter_le _ _)

theorem receive_eq (h : ∀ old ∈ bucket, x.covers rule old = false) :
    receive rule bucket x = bucket ++ [x] := by
  rw [receive, List.filter_eq_self.2 fun old hold => by rw [h old hold]; rfl]

theorem sparse_receive (h : Sparse rule bucket) (hnone : ∀ z ∈ bucket, z.covers rule x = false) :
    Sparse rule (receive rule bucket x) := by
  rw [Sparse, receive, List.pairwise_append]
  refine ⟨h.filter _, List.pairwise_singleton _ x, fun a ha b hb => ?_⟩
  obtain ⟨hmem, hkept⟩ := List.mem_filter.1 ha
  obtain rfl := List.mem_singleton.1 hb
  rw [Bool.not_eq_true'] at hkept
  exact ⟨hnone a hmem, hkept⟩

namespace Outcome

variable {next : List (Label α)} {cut : Bool}

theorem sparse (h : Outcome rule limit bucket x next cut) (hsparse : Sparse rule bucket) :
    Sparse rule next := by
  cases h with
  | needless => exact hsparse
  | taken hnone => exact sparse_receive hsparse hnone
  | cut hnone _ hperm _ =>
    have hall := (hperm.pairwise_iff fun hab => ⟨hab.2, hab.1⟩).1 (sparse_receive hsparse hnone)
    exact (List.pairwise_cons.1 hall).2

theorem length_le (h : Outcome rule limit bucket x next cut)
    (hlength : bucket.length ≤ max limit 1) : next.length ≤ max limit 1 := by
  cases h with
  | needless => exact hlength
  | taken _ hlimit => exact hlimit
  | cut _ _ hperm _ =>
    have hrest := hperm.length_eq
    have hreceive := length_receive_le rule bucket x
    rw [List.length_cons] at hrest
    omega

end Outcome

end

/-- The bucket after labels were offered to an empty one, one after another, and whether the limit
cost a label. -/
def offerAll {α : Type} [Scalar α] (rule : VisitRule) (limit : Nat) (offered : List (Label α)) :
    List (Label α) × Bool :=
  offered.foldl (fun state x =>
    ((insert rule limit state.1 x).1, state.2 || (insert rule limit state.1 x).2)) ([], false)

theorem offerAll_concat {α : Type} [Scalar α] (rule : VisitRule) (limit : Nat)
    (offered : List (Label α)) (x : Label α) : offerAll rule limit (offered ++ [x]) =
      ((insert rule limit (offerAll rule limit offered).1 x).1,
        (offerAll rule limit offered).2 ||
          (insert rule limit (offerAll rule limit offered).1 x).2) := by
  rw [offerAll, List.foldl_append]
  rfl

/-- What a bucket is worth to which some labels were offered: it holds some of them, none of which
makes another one needless, without repetition and within the limit; and unless the limit cost a
label, all that were offered are covered. -/
structure Serves (rule : VisitRule) (limit : Nat) (offered : List (Label Rat))
    (bucket : List (Label Rat)) (cut : Bool) : Prop where
  mem : ∀ y ∈ bucket, y ∈ offered
  sparse : Sparse rule bucket
  nodup : bucket.Nodup
  length_le : bucket.length ≤ max limit 1
  covered : cut = false → ∀ y ∈ offered, ∃ z ∈ bucket, z.covers rule y = true

/-- One label is removed although no label makes it needless: the bucket was full, the new label
makes none needless, and a costliest one gives way. -/
structure Caps (rule : VisitRule) (limit : Nat) (bucket : List (Label Rat)) (x : Label Rat)
    (removed : Label Rat) (next : List (Label Rat)) : Prop where
  full : bucket.length = max limit 1
  needed : ∀ y ∈ bucket, y.covers rule x = false ∧ x.covers rule y = false
  perm : (bucket ++ [x]).Perm (removed :: next)
  costliest : ∀ y ∈ bucket ++ [x], y.cost ≤ removed.cost

section

variable {rule : VisitRule} {P : Trail → Prop} (hrule : rule.IsPreorderOn P) {limit : Nat}
  {offered bucket next : List (Label Rat)} {x y z : Label Rat} {cut : Bool}

include hrule

theorem covers_refl (hx : P x.trail) : x.covers rule x = true :=
  Search.covers_iff.2 ⟨le_rfl, hrule.refl hx⟩

theorem covers_trans (hx : P x.trail) (hy : P y.trail) (hz : P z.trail)
    (hxy : x.covers rule y = true) (hyz : y.covers rule z = true) : x.covers rule z = true := by
  obtain ⟨hcost, htrail⟩ := Search.covers_iff.1 hxy
  obtain ⟨hcost', htrail'⟩ := Search.covers_iff.1 hyz
  exact Search.covers_iff.2 ⟨hcost.trans hcost', hrule.trans hx hy hz htrail htrail'⟩

theorem Sparse.nodup (h : Sparse rule bucket) (hP : ∀ y ∈ bucket, P y.trail) : bucket.Nodup := by
  refine List.Pairwise.imp_of_mem (fun {a b} ha _ hab heq => ?_) h
  have hself := covers_refl hrule (hP a ha)
  rw [← heq, hself] at hab
  cases hab.1

namespace Outcome

/-- As long as the limit costs no label, all that there was is covered. -/
theorem exists_covers (h : Outcome rule limit bucket x next false)
    (hbucket : ∀ y ∈ bucket, P y.trail) (hx : P x.trail) :
    ∀ y ∈ bucket ++ [x], ∃ z ∈ next, z.covers rule y = true := by
  refine List.forall_mem_append.2 ⟨fun y hy => ?_, List.forall_mem_singleton.2 ?_⟩
  · have hself := covers_refl hrule (hbucket y hy)
    cases h with
    | needless => exact ⟨y, hy, hself⟩
    | taken _ _ =>
      cases hcovers : x.covers rule y with
      | true => exact ⟨x, List.mem_append_right _ (List.mem_singleton_self x), hcovers⟩
      | false =>
        have hkept : y ∈ bucket.filter fun old => !x.covers rule old :=
          List.mem_filter.2 ⟨hy, by rw [hcovers]; rfl⟩
        exact ⟨y, List.mem_append_left _ hkept, hself⟩
  · cases h with
    | needless hz hcovers => exact ⟨_, hz, hcovers⟩
    | taken _ _ =>
      exact ⟨x, List.mem_append_right _ (List.mem_singleton_self x), covers_refl hrule hx⟩

omit hrule in
/-- If the limit costs a label, the bucket was full, so that none was needless. -/
theorem exists_caps (h : Outcome rule limit bucket x next true)
    (hlength : bucket.length ≤ max limit 1) :
    ∃ removed, Caps rule limit bucket x removed next := by
  cases h with
  | @cut removed _ hnone hlimit hperm hmax =>
    have hle := length_receive_le rule bucket x
    have hfilter : (bucket.filter fun old => !x.covers rule old).length = bucket.length := by
      have hkept := List.length_filter_le (fun old => !x.covers rule old) bucket
      rw [receive, List.length_append, List.length_singleton] at hlimit
      omega
    have hneeded : ∀ y ∈ bucket, x.covers rule y = false := by
      intro y hy
      have hkept := List.length_filter_eq_length_iff.1 hfilter y hy
      rwa [Bool.not_eq_true'] at hkept
    rw [receive_eq hneeded] at hperm hmax
    refine ⟨removed, ?_, fun y hy => ⟨hnone y hy, hneeded y hy⟩, hperm, ?_⟩
    · omega
    · exact fun y hy => of_decide_eq_true (hmax y hy)

omit hrule in
theorem eq_true_of_caps (h : Outcome rule limit bucket x next cut) {removed : Label Rat}
    (hcaps : Caps rule limit bucket x removed next) : cut = true := by
  cases h with
  | needless hz hcovers =>
    rw [(hcaps.needed _ hz).1] at hcovers
    cases hcovers
  | taken _ hlimit =>
    rw [receive_eq fun y hy => (hcaps.needed y hy).2, List.length_append, hcaps.full,
      List.length_singleton] at hlimit
    omega
  | cut => rfl

end Outcome

theorem Serves.concat (h : Serves rule limit offered bucket cut)
    (hoffered : ∀ y ∈ offered, P y.trail) (hx : P x.trail) :
    Serves rule limit (offered ++ [x]) (insert rule limit bucket x).1
      (cut || (insert rule limit bucket x).2) := by
  have houtcome := outcome_insert rule limit bucket x
  have hmem : ∀ y ∈ (insert rule limit bucket x).1, y ∈ offered ++ [x] := by
    intro y hy
    rcases mem_insert hy with hy | rfl
    · exact List.mem_append_left _ (h.mem y hy)
    · exact List.mem_append_right _ (List.mem_singleton_self y)
  have hall : ∀ y ∈ offered ++ [x], P y.trail :=
    List.forall_mem_append.2 ⟨hoffered, List.forall_mem_singleton.2 hx⟩
  have hsparse := houtcome.sparse h.sparse
  constructor
  case mem => exact hmem
  case sparse => exact hsparse
  case nodup => exact hsparse.nodup hrule fun y hy => hall y (hmem y hy)
  case length_le => exact houtcome.length_le h.length_le
  case covered =>
    intro hcut y hy
    obtain ⟨hbefore, hnow⟩ := Bool.or_eq_false_iff.1 hcut
    rw [hnow] at houtcome
    have hkept := houtcome.exists_covers hrule (fun z hz => hoffered z (h.mem z hz)) hx
    rcases List.mem_append.1 hy with hy | hy
    · obtain ⟨z, hz, hcovers⟩ := h.covered hbefore y hy
      obtain ⟨u, hu, hcovers'⟩ := hkept z (List.mem_append_left _ hz)
      exact ⟨u, hu, covers_trans hrule (hall u (hmem u hu)) (hoffered z (h.mem z hz))
        (hoffered y hy) hcovers' hcovers⟩
    · exact hkept y (List.mem_append_right _ hy)

theorem serves_offerAll (limit : Nat) (hoffered : ∀ y ∈ offered, P y.trail) :
    Serves rule limit offered (offerAll rule limit offered).1
      (offerAll rule limit offered).2 := by
  induction offered using List.reverseRecOn with
  | nil =>
    exact ⟨fun y hy => hy, .nil, .nil, Nat.zero_le _, fun _ y hy => absurd hy List.not_mem_nil⟩
  | append_singleton offered x ih =>
    obtain ⟨hbefore, hx⟩ := List.forall_mem_append.1 hoffered
    rw [offerAll_concat]
    exact (ih hbefore).concat hrule hbefore (hx x (List.mem_singleton_self x))

end

/-- A bucket that is empty at first, to which labels are offered one after another, whatever their
costs, under a rule that compares their trails by a preorder. After each label it serves for all of
them. The next label has the limit cost a label exactly if a costliest one of a full bucket is
removed and nothing is needless; otherwise whatever was there is covered afterwards. -/
theorem serves_of_isPreorderOn {rule : VisitRule} {P : Trail → Prop} (hrule : rule.IsPreorderOn P)
    (limit : Nat) {offered : List (Label Rat)} (hoffered : ∀ y ∈ offered, P y.trail) :
    Serves rule limit offered (offerAll rule limit offered).1
      (offerAll rule limit offered).2 ∧
    ∀ x, P x.trail →
      ((insert rule limit (offerAll rule limit offered).1 x).2 = true ↔
        ∃ removed, Caps rule limit (offerAll rule limit offered).1 x removed
          (insert rule limit (offerAll rule limit offered).1 x).1) ∧
      ((insert rule limit (offerAll rule limit offered).1 x).2 = false →
        ∀ y ∈ (offerAll rule limit offered).1 ++ [x],
          ∃ z ∈ (insert rule limit (offerAll rule limit offered).1 x).1,
            z.covers rule y = true) := by
  have hserves := serves_offerAll hrule limit hoffered
  refine ⟨hserves, fun x hx => ⟨⟨fun hcut => ?_, ?_⟩, fun hcut => ?_⟩⟩
  · have houtcome := outcome_insert rule limit (offerAll rule limit offered).1 x
    rw [hcut] at houtcome
    exact houtcome.exists_caps hserves.length_le
  · rintro ⟨removed, hcaps⟩
    exact (outcome_insert rule limit _ x).eq_true_of_caps hcaps
  · have houtcome := outcome_insert rule limit (offerAll rule limit offered).1 x
    rw [hcut] at houtcome
    exact houtcome.exists_covers hrule (fun y hy => hoffered y (hserves.mem y hy)) hx

def labelAfter (cost : Rat) (visits : List Nat) : Label Rat :=
  ⟨cost, [], Trail.ofVisits 3 1 visits⟩

/-- Where no vertex is entered twice, a cheaper label with the same visits takes the place of the
first one, and has to give way to a still cheaper one with more visits if the limit is one. -/
theorem serves_crowded :
    Restriction.holeFree.rule.IsPreorderOn (Restriction.holeFree.rule.Leaves 3) ∧
    (∀ y ∈ [labelAfter 2 [0, 1], labelAfter 1 [0, 1]],
      Restriction.holeFree.rule.Leaves 3 y.trail) ∧
    Serves Restriction.holeFree.rule 1 [labelAfter 2 [0, 1], labelAfter 1 [0, 1]]
      [labelAfter 1 [0, 1]] false ∧
    ∃ removed, Caps Restriction.holeFree.rule 1 [labelAfter 1 [0, 1]] (labelAfter 0 [0, 1, 2])
      removed [labelAfter 0 [0, 1, 2]] := by
  have hrule := (Restriction.isDominance .holeFree 3).isPreorderOn
  have hleaves {cost : Rat} {visits : List Nat} (hne : visits ≠ []) (hlt : ∀ v ∈ visits, v < 3) :
      Restriction.holeFree.rule.Leaves 3 (labelAfter cost visits).trail :=
    ⟨visits, hne, hlt, rfl⟩
  have hoffered : ∀ y ∈ [labelAfter 2 [0, 1], labelAfter 1 [0, 1]],
      Restriction.holeFree.rule.Leaves 3 y.trail :=
    List.forall_mem_cons.2 ⟨hleaves (by decide) (by decide),
      List.forall_mem_singleton.2 (hleaves (by decide) (by decide))⟩
  obtain ⟨hserves, hnext⟩ := serves_of_isPreorderOn hrule 1 hoffered
  have hbefore : offerAll Restriction.holeFree.rule 1 [labelAfter 2 [0, 1], labelAfter 1 [0, 1]] =
      ([labelAfter 1 [0, 1]], false) := rfl
  have hinsert : insert Restriction.holeFree.rule 1 [labelAfter 1 [0, 1]]
      (labelAfter 0 [0, 1, 2]) = ([labelAfter 0 [0, 1, 2]], true) := rfl
  obtain ⟨hcut, _⟩ := hnext (labelAfter 0 [0, 1, 2]) (hleaves (by decide) (by decide))
  rw [hbefore, hinsert] at hcut
  rw [hbefore] at hserves
  exact ⟨hrule, hoffered, hserves, hcut.1 rfl⟩

end Bucket

end TourPricing
