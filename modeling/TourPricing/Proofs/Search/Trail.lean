import Mathlib.Data.List.Basic
import TourPricing.Search.Rule

namespace TourPricing

variable {n memory : Nat} {visits : List Nat} {v : Nat}

def Trail.ofVisits (n memory : Nat) (visits : List Nat) : Trail :=
  ⟨visits.drop (visits.length - memory), visits.foldl VertexSet.insert (VertexSet.empty n)⟩

theorem VertexSet.blocks_foldl_insert (s : VertexSet) (visits : List Nat) :
    (visits.foldl VertexSet.insert s).blocks = s.blocks := by
  induction visits generalizing s with
  | nil => rfl
  | cons v rest ih => rw [List.foldl_cons, ih, VertexSet.blocks_insert]

theorem VertexSet.contains_foldl_insert (s : VertexSet) (visits : List Nat) (v : Nat) :
    (visits.foldl VertexSet.insert s).contains v = true ↔ s.contains v = true ∨ v ∈ visits := by
  induction visits generalizing s with
  | nil => simp
  | cons w rest ih =>
    rw [List.foldl_cons, ih, VertexSet.contains_insert, Bool.or_eq_true, decide_eq_true_eq,
      List.mem_cons, or_assoc, @eq_comm _ w v]

namespace Trail

theorem contains_ofVisits : (ofVisits n memory visits).visited.contains v = true ↔ v ∈ visits := by
  rw [ofVisits, VertexSet.contains_foldl_insert, VertexSet.contains_empty]
  simp

theorem mem_recent_ofVisits : v ∈ (ofVisits n memory visits).recent ↔
    ∃ i, visits.length - i ≤ memory ∧ visits[i]? = some v := by
  rw [ofVisits, List.mem_iff_getElem?]
  constructor
  · rintro ⟨i, hi⟩
    rw [List.getElem?_drop] at hi
    exact ⟨_, by omega, hi⟩
  · rintro ⟨i, hle, hi⟩
    refine ⟨i - (visits.length - memory), ?_⟩
    rw [List.getElem?_drop, ← hi]
    congr 1
    omega

theorem length_recent_ofVisits_le : (ofVisits n memory visits).recent.length ≤ memory := by
  rw [ofVisits, List.length_drop]
  omega

theorem start_eq_ofVisits (hm : 0 < memory) (source : Nat) :
    Trail.start n source = ofVisits n memory [source] := by
  rw [ofVisits, List.length_singleton, Nat.sub_eq_zero_of_le hm]
  rfl

theorem visit_ofVisits (hm : 0 < memory) (v : Nat) :
    (ofVisits n memory visits).visit memory v = ofVisits n memory (visits ++ [v]) := by
  have hrecent : ((ofVisits n memory visits).visit memory v).recent =
      (ofVisits n memory (visits ++ [v])).recent := by
    simp only [visit, ofVisits, List.length_append, List.length_drop, List.length_singleton]
    by_cases hle : memory ≤ visits.length
    · have hdrop : visits.length - memory + 1 ≤ visits.length := by omega
      have hpos : 1 ≤ (visits.drop (visits.length - memory)).length := by
        rw [List.length_drop]
        omega
      rw [if_pos (by omega), Nat.sub_add_comm hle, List.drop_append_of_le_length hdrop,
        List.drop_append_of_le_length hpos, List.drop_drop]
    · have hall : visits.length - memory = 0 := by omega
      have hall' : visits.length + 1 - memory = 0 := by omega
      rw [if_neg (by omega), hall, hall', List.drop_zero, List.drop_zero]
  have hvisited : ((ofVisits n memory visits).visit memory v).visited =
      (ofVisits n memory (visits ++ [v])).visited := by
    simp only [visit, ofVisits, List.foldl_append, List.foldl_cons, List.foldl_nil]
  exact congrArg₂ Trail.mk hrecent hvisited

end Trail

namespace VisitRule

/-- Trails that visits to `n` vertices leave under a rule. -/
def Leaves (rule : VisitRule) (n : Nat) (t : Trail) : Prop :=
  ∃ visits, visits ≠ [] ∧ (∀ v ∈ visits, v < n) ∧ t = Trail.ofVisits n rule.memory visits

/-- One trail can stand for another that it dominates: dominance is a preorder, it only opens ways,
and it lasts when both trails go on to the same vertex. -/
structure IsDominance (rule : VisitRule) (n : Nat) : Prop where
  refl : ∀ {a}, rule.Leaves n a → rule.dominates a a = true
  trans : ∀ {a b c}, rule.Leaves n a → rule.Leaves n b → rule.Leaves n c →
    rule.dominates a b = true → rule.dominates b c = true → rule.dominates a c = true
  admits : ∀ {a b}, rule.Leaves n a → rule.Leaves n b → rule.dominates a b = true →
    ∀ v < n, rule.admits b v = true → rule.admits a v = true
  visit : ∀ {a b}, rule.Leaves n a → rule.Leaves n b → rule.dominates a b = true →
    ∀ v < n, rule.dominates (a.visit rule.memory v) (b.visit rule.memory v) = true

theorem memory_pos (rule : VisitRule) : 0 < rule.memory :=
  Nat.lt_of_lt_of_le Nat.one_pos (Nat.le_max_right _ _)

theorem Leaves.visit {rule : VisitRule} {t : Trail} (h : rule.Leaves n t) (hv : v < n) :
    rule.Leaves n (t.visit rule.memory v) := by
  obtain ⟨visits, _, hlt, rfl⟩ := h
  refine ⟨visits ++ [v], List.concat_ne_nil _ _, fun w hw => ?_,
    Trail.visit_ofVisits rule.memory_pos v⟩
  rcases List.mem_append.1 hw with hw | hw
  · exact hlt w hw
  · rw [List.mem_singleton.1 hw]
    exact hv

theorem isDominance_of_recent {rule : VisitRule}
    (hd : ∀ a b, rule.dominates a b = true ↔ a.recent = b.recent)
    (ha : ∀ a b v, a.recent = b.recent → rule.admits a v = rule.admits b v) (n : Nat) :
    rule.IsDominance n where
  refl _ := (hd _ _).2 rfl
  trans _ _ _ hab hbc := (hd _ _).2 (((hd _ _).1 hab).trans ((hd _ _).1 hbc))
  admits _ _ hab v _ hv := by rw [ha _ _ v ((hd _ _).1 hab), hv]
  visit _ _ hab v _ := by
    rw [hd, Trail.visit, Trail.visit, (hd _ _).1 hab]

end VisitRule

namespace Restriction

variable {r : Restriction}

theorem holeFree_dominates_iff {a b : Trail} (ha : holeFree.rule.Leaves n a)
    (hb : holeFree.rule.Leaves n b) : holeFree.rule.dominates a b = true ↔
      ∀ v, a.visited.contains v = true → b.visited.contains v = true := by
  obtain ⟨visits, _, hv, rfl⟩ := ha
  obtain ⟨others, _, _, rfl⟩ := hb
  apply VertexSet.isSubset_iff.trans
  refine ⟨fun h v hva => h v ?_ hva, fun h v _ => h v⟩
  have hlt := hv v (Trail.contains_ofVisits.1 hva)
  simp only [Trail.ofVisits, VertexSet.blocks_foldl_insert, VertexSet.empty]
  omega

theorem isDominance (r : Restriction) (n : Nat) : r.rule.IsDominance n := by
  cases r with
  | acyclic k =>
    apply VisitRule.isDominance_of_recent fun a b => beq_iff_eq
    intro a b v h
    simp only [rule, Restriction.admits, h]
  | twoCycleFree =>
    apply VisitRule.isDominance_of_recent fun a b => beq_iff_eq
    intro a b v h
    simp only [rule, Restriction.admits, h]
  | holeFree =>
    refine ⟨fun ha => ?_, fun ha hb hc hab hbc => ?_, fun ha hb hab v _ hv => ?_,
      fun ha hb hab v hv => ?_⟩
    · exact (holeFree_dominates_iff ha ha).2 fun v hv => hv
    · rw [holeFree_dominates_iff ha hb] at hab
      rw [holeFree_dominates_iff hb hc] at hbc
      exact (holeFree_dominates_iff ha hc).2 fun v hv => hbc v (hab v hv)
    · rw [holeFree_dominates_iff ha hb] at hab
      simp only [rule, Restriction.admits, Bool.not_eq_true'] at hv ⊢
      exact Bool.eq_false_iff.2 fun h => Bool.eq_false_iff.1 hv (hab v h)
    · rw [holeFree_dominates_iff ha hb] at hab
      rw [holeFree_dominates_iff (ha.visit hv) (hb.visit hv)]
      intro w hw
      simp only [Trail.visit, VertexSet.contains_insert, Bool.or_eq_true] at hw ⊢
      exact hw.imp_left (hab w)

def Sees : Restriction → Nat → Prop
  | .acyclic k, gap => gap ≤ max k 1
  | .holeFree, _ => True
  | .twoCycleFree, gap => gap ≤ 2

/-- Visits keep to a restriction if no vertex comes again within its sight. -/
def Obeys (r : Restriction) (visits : List Nat) : Prop :=
  ∀ (i j v : Nat), i < j → r.Sees (j - i) → visits[i]? = some v → visits[j]? ≠ some v

theorem admits_ofVisits_iff : r.admits (Trail.ofVisits n r.rule.memory visits) v = true ↔
    ∀ i, r.Sees (visits.length - i) → visits[i]? ≠ some v := by
  have hrecent (m : Nat) (hm : r.rule.memory = m) :
      v ∉ (Trail.ofVisits n r.rule.memory visits).recent ↔
        ∀ i, visits.length - i ≤ m → visits[i]? ≠ some v := by
    rw [Trail.mem_recent_ofVisits, hm]
    exact ⟨fun h i hi hv => h ⟨i, hi, hv⟩, fun h ⟨i, hi, hv⟩ => h i hi hv⟩
  cases r with
  | acyclic k =>
    simp only [Restriction.admits, Bool.not_eq_true', ← Bool.not_eq_true, List.contains_iff_mem]
    exact hrecent (max k 1) (by simp only [VisitRule.memory, rule, lookback]; omega)
  | twoCycleFree =>
    have hlen : (Trail.ofVisits n twoCycleFree.rule.memory visits).recent.reverse.length ≤ 2 := by
      rw [List.length_reverse]
      exact Trail.length_recent_ofVisits_le
    simp only [Restriction.admits, Bool.not_eq_true', ← Bool.not_eq_true, List.contains_iff_mem]
    rw [List.take_of_length_le hlen, List.mem_reverse]
    exact hrecent 2 rfl
  | holeFree =>
    simp only [Restriction.admits, Bool.not_eq_true', ← Bool.not_eq_true, Trail.contains_ofVisits]
    rw [List.mem_iff_getElem?]
    exact ⟨fun h i _ hv => h ⟨i, hv⟩, fun h ⟨i, hv⟩ => h i trivial hv⟩

theorem obeys_singleton (r : Restriction) (v : Nat) : r.Obeys [v] := by
  intro i j w hij _ _ hj
  obtain ⟨hlt, _⟩ := List.getElem?_eq_some_iff.1 hj
  rw [List.length_singleton] at hlt
  omega

/-- One more visit keeps to a restriction exactly if the restriction admits it after the trail of
the visits before. -/
theorem obeys_snoc_iff : r.Obeys (visits ++ [v]) ↔
    r.Obeys visits ∧ r.admits (Trail.ofVisits n r.rule.memory visits) v = true := by
  rw [admits_ofVisits_iff]
  have hleft {i w : Nat} (hw : visits[i]? = some w) : (visits ++ [v])[i]? = some w := by
    rw [List.getElem?_append_left (List.getElem?_eq_some_iff.1 hw).1, hw]
  constructor
  · intro h
    refine ⟨fun i j w hij hs hi hj => h i j w hij hs (hleft hi) (hleft hj), fun i hs hi => ?_⟩
    have hlt := (List.getElem?_eq_some_iff.1 hi).1
    exact h i visits.length v hlt hs (hleft hi) List.getElem?_concat_length
  · rintro ⟨hold, hnew⟩ i j w hij hs hi hj
    have hlt := (List.getElem?_eq_some_iff.1 hj).1
    rw [List.length_append, List.length_singleton] at hlt
    rw [List.getElem?_append_left (by omega)] at hi
    rcases Nat.lt_succ_iff_lt_or_eq.1 hlt with hjl | hjl
    · rw [List.getElem?_append_left hjl] at hj
      exact hold i j w hij hs hi hj
    · rw [hjl] at hj hs
      rw [List.getElem?_concat_length, Option.some.injEq] at hj
      exact hnew i hs (hj ▸ hi)

theorem admits_of_not_mem (r : Restriction) (n : Nat) (hv : v ∉ visits) :
    r.admits (Trail.ofVisits n r.rule.memory visits) v = true :=
  admits_ofVisits_iff.2 fun _ _ hi => hv (List.mem_of_getElem? hi)

end Restriction

end TourPricing
