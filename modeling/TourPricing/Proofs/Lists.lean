import Mathlib.Data.List.Forall2
import Mathlib.Data.List.Induction
import Mathlib.Data.List.Perm.Subperm
import Mathlib.Order.Bounds.Basic
import Mathlib.Order.MinMax
import Mathlib.Order.OrderDual
import TourPricing.Total

namespace TourPricing

variable {β γ δ ε : Type}

theorem map_eq_of_forall₂ {R : β → γ → Prop} {l : List β} {l' : List γ} (h : List.Forall₂ R l l')
    {f : β → δ} {g : γ → δ} (hfg : ∀ a b, R a b → f a = g b) : l.map f = l'.map g := by
  have heq : List.Forall₂ Eq (l.map f) (l'.map g) :=
    List.forall₂_map_left_iff.2 (List.forall₂_map_right_iff.2 (h.imp hfg))
  rwa [List.forall₂_eq_eq_eq] at heq

theorem forall_right_of_forall₂ {R : β → γ → Prop} {l : List β} {l' : List γ}
    (h : List.Forall₂ R l l') {p : γ → Prop} (hp : ∀ b c, R b c → p c) : ∀ c ∈ l', p c := by
  have hboth : List.Forall₂ (fun c b => p c ∧ R b c) l' l :=
    h.flip.imp fun c b hbc => ⟨hp b c hbc, hbc⟩
  exact ((List.forall₂_and_left _ _).1 hboth).1

theorem exists_forall₂ {R : β → γ → Prop} {l : List β} (h : ∀ b ∈ l, ∃ c, R b c) :
    ∃ cs, List.Forall₂ R l cs := by
  induction l with
  | nil => exact ⟨[], .nil⟩
  | cons b rest ih =>
    obtain ⟨c, hc⟩ := h b List.mem_cons_self
    obtain ⟨cs, hcs⟩ := ih fun a ha => h a (List.mem_cons_of_mem _ ha)
    exact ⟨c :: cs, .cons hc hcs⟩

theorem exists_of_bind_ok {x : Except ε β} {f : β → Except ε γ} {c : γ}
    (h : (x >>= f) = .ok c) : ∃ b, x = .ok b ∧ f b = .ok c := by
  cases x with
  | error e => cases h
  | ok b => exact ⟨b, rfl, h⟩

theorem forall₂_of_mapM_ok {f : β → Except ε γ} {l : List β} {cs : List γ}
    (h : l.mapM f = .ok cs) : List.Forall₂ (fun b c => f b = .ok c) l cs := by
  induction l generalizing cs with
  | nil =>
    obtain rfl := Except.ok.inj h
    exact .nil
  | cons b rest ih =>
    rw [List.mapM_cons] at h
    obtain ⟨c, hc, h⟩ := exists_of_bind_ok h
    obtain ⟨others, hrest, h⟩ := exists_of_bind_ok h
    obtain rfl := Except.ok.inj h
    exact .cons hc (ih hrest)

theorem mapM_map_eq_ok {f : γ → Except ε β} {g : β → γ} {l : List β}
    (h : ∀ b ∈ l, f (g b) = .ok b) : (l.map g).mapM f = .ok l := by
  induction l with
  | nil => rfl
  | cons b rest ih =>
    rw [List.map_cons, List.mapM_cons, h b List.mem_cons_self,
      ih fun a ha => h a (List.mem_cons_of_mem b ha)]
    rfl

theorem exists_of_mapM_error {f : β → Except ε γ} {l : List β} {e : ε}
    (h : l.mapM f = .error e) : ∃ b ∈ l, f b = .error e := by
  induction l with
  | nil => cases h
  | cons b rest ih =>
    rw [List.mapM_cons] at h
    cases hb : f b with
    | error e' =>
      rw [hb] at h
      obtain rfl := Except.error.inj h
      exact ⟨b, List.mem_cons_self, hb⟩
    | ok c =>
      cases hrest : rest.mapM f with
      | error e' =>
        rw [hb, hrest] at h
        obtain rfl := Except.error.inj h
        obtain ⟨a, ha, hf⟩ := ih hrest
        exact ⟨a, List.mem_cons_of_mem _ ha, hf⟩
      | ok cs =>
        rw [hb, hrest] at h
        cases h

theorem mapM_eq_some_of_forall₂ {f : β → Option γ} {l : List β} {cs : List γ}
    (h : List.Forall₂ (fun b c => f b = some c) l cs) : l.mapM f = some cs := by
  induction h with
  | nil => rfl
  | cons hb _ ih =>
    rw [List.mapM_cons, hb, ih]
    rfl

/-- A partial function with a condition is mapped over a list if all its elements meet it. -/
theorem mapM_eq_some_iff {f : β → Option γ} {g : β → γ} {p : β → Prop}
    (hf : ∀ b c, f b = some c ↔ p b ∧ g b = c) {l : List β} {cs : List γ} :
    l.mapM f = some cs ↔ (∀ b ∈ l, p b) ∧ l.map g = cs := by
  induction l generalizing cs with
  | nil => exact ⟨fun h => ⟨nofun, Option.some.inj h⟩, fun h => congrArg some h.2⟩
  | cons b rest ih =>
    rw [List.mapM_cons, List.forall_mem_cons, List.map_cons]
    constructor
    · intro h
      obtain ⟨c, hc, h⟩ := Option.bind_eq_some_iff.1 h
      obtain ⟨others, hothers, h⟩ := Option.bind_eq_some_iff.1 h
      obtain ⟨hb, rfl⟩ := (hf b c).1 hc
      obtain ⟨hrest, rfl⟩ := ih.1 hothers
      exact ⟨⟨hb, hrest⟩, Option.some.inj h⟩
    · rintro ⟨⟨hb, hrest⟩, rfl⟩
      rw [(hf b _).2 ⟨hb, rfl⟩, ih.2 ⟨hrest, rfl⟩]
      rfl

theorem filter_eq_takeWhile {R : β → β → Prop} {p : β → Bool} {l : List β}
    (h : l.Pairwise R) (hp : ∀ a b, R a b → p b = true → p a = true) :
    l.filter p = l.takeWhile p := by
  induction l with
  | nil => rfl
  | cons a rest ih =>
    obtain ⟨ha, hrest⟩ := List.pairwise_cons.1 h
    cases hpa : p a with
    | true => rw [List.filter_cons_of_pos hpa, List.takeWhile_cons_of_pos hpa, ih hrest]
    | false =>
      rw [List.takeWhile_cons_of_neg (Bool.eq_false_iff.1 hpa), List.filter_eq_nil_iff]
      intro b hb hpb
      rcases List.mem_cons.1 hb with rfl | hb
      · exact Bool.eq_false_iff.1 hpa hpb
      · exact Bool.eq_false_iff.1 hpa (hp a b (ha b hb) hpb)

theorem mem_take_iff_of_ascending {l : List Nat} (h : l.Pairwise (· < ·)) {a n : Nat} :
    a ∈ l.take n ↔ a ∈ l ∧ (l.filter (· < a)).length < n := by
  induction l generalizing n with
  | nil => simp
  | cons b rest ih =>
    obtain ⟨hb, hrest⟩ := List.pairwise_cons.1 h
    cases n with
    | zero => simp
    | succ n =>
      rw [List.take_succ_cons, List.mem_cons, List.mem_cons, ih hrest]
      by_cases hba : b < a
      · have hne : a ≠ b := Nat.ne_of_gt hba
        simp [hba, hne]
      · have hnone : (b :: rest).filter (· < a) = [] := by
          rw [List.filter_eq_nil_iff]
          intro c hc
          rw [decide_eq_true_eq]
          rcases List.mem_cons.1 hc with rfl | hc
          · exact hba
          · have hbc := hb c hc
            omega
        have hnot : a ∉ rest := fun ha => hba (hb a ha)
        simp [hnone, hnot]

theorem length_flatMap_eq_total (f : β → List γ) (l : List β) :
    (l.flatMap f).length = total (l.map fun a => (f a).length) := by
  induction l with
  | nil => rfl
  | cons a rest ih => rw [List.flatMap_cons, List.length_append, ih, List.map_cons, total_cons]

theorem subperm_range_of_nodup {l : List Nat} {n : Nat} (h : l.Nodup) (hlt : ∀ v ∈ l, v < n) :
    l.Subperm (List.range n) :=
  h.subperm fun v hv => List.mem_range.2 (hlt v hv)

theorem perm_range_of_nodup {l : List Nat} {n : Nat} (h : l.Nodup) (hlt : ∀ v ∈ l, v < n)
    (hlength : l.length = n) : l.Perm (List.range n) := by
  apply (subperm_range_of_nodup h hlt).perm_of_length_le
  rw [List.length_range, hlength]

theorem length_le_of_nodup {l : List Nat} {n : Nat} (h : l.Nodup) (hlt : ∀ v ∈ l, v < n) :
    l.length ≤ n :=
  (subperm_range_of_nodup h hlt).length_le.trans_eq List.length_range

theorem exists_lt_not_mem {l : List Nat} {n : Nat} (h : l.length < n) : ∃ v < n, v ∉ l := by
  by_contra hall
  have hsub : (List.range n).Subperm l := by
    apply List.nodup_range.subperm
    intro v hv
    by_contra hnew
    exact hall ⟨v, List.mem_range.1 hv, hnew⟩
  have hle := hsub.length_le
  rw [List.length_range] at hle
  omega

theorem cases_of_concat_eq {l before later : List β} {a b : β}
    (h : l ++ [a] = before ++ b :: later) :
    (l = before ∧ a = b ∧ later = []) ∨ ∃ rest, later = rest ++ [a] ∧ l = before ++ b :: rest := by
  rcases List.eq_nil_or_concat later with rfl | ⟨rest, c, rfl⟩
  · obtain ⟨hl, hlast⟩ := List.append_inj' h rfl
    exact .inl ⟨hl, List.singleton_inj.1 hlast, rfl⟩
  · rw [List.concat_eq_append, ← List.cons_append, ← List.append_assoc] at h
    obtain ⟨hl, hlast⟩ := List.append_inj' h rfl
    obtain rfl := List.singleton_inj.1 hlast
    exact .inr ⟨rest, List.concat_eq_append, hl⟩

section

variable [LinearOrder β]

theorem min?_concat (l : List β) (a : β) :
    (l ++ [a]).min? = if l.min?.all (a < ·) then some a else l.min? := by
  cases l with
  | nil => rfl
  | cons b rest =>
    rw [List.cons_append, List.min?_cons', List.min?_cons', List.foldl_append, Option.all_some]
    change some (min (rest.foldl min b) a) = _
    by_cases h : a < rest.foldl min b
    · rw [if_pos (decide_eq_true h), min_eq_right h.le]
    · rw [if_neg (by simpa using h), min_eq_left (not_lt.1 h)]

theorem max?_concat (l : List β) (a : β) :
    (l ++ [a]).max? = if l.max?.all (· < a) then some a else l.max? :=
  min?_concat (β := βᵒᵈ) l a

theorem exists_le_min?_append {l : List β} {a : β} (h : a ∈ l.min?) (more : List β) :
    ∃ b ∈ (l ++ more).min?, b ≤ a := by
  induction more using List.reverseRecOn with
  | nil => exact ⟨a, (List.append_nil l).symm ▸ h, le_rfl⟩
  | append_singleton more c ih =>
    obtain ⟨b, hb, hba⟩ := ih
    rw [← List.append_assoc, min?_concat, hb]
    by_cases hc : c < b
    · exact ⟨c, if_pos (decide_eq_true hc), hc.le.trans hba⟩
    · exact ⟨b, if_neg (by simpa using hc), hba⟩

theorem exists_max?_append_le {l : List β} {a : β} (h : a ∈ l.max?) (more : List β) :
    ∃ b ∈ (l ++ more).max?, a ≤ b :=
  exists_le_min?_append (β := βᵒᵈ) h more

theorem find?_eq_some_iff_isLeast {l : List β} (h : l.Pairwise (· < ·)) {p : β → Bool} {a : β} :
    l.find? p = some a ↔ IsLeast {b | b ∈ l ∧ p b = true} a := by
  have hleast {b : β} (hb : l.find? p = some b) : IsLeast {b | b ∈ l ∧ p b = true} b := by
    obtain ⟨hpb, before, after, rfl, hbefore⟩ := List.find?_eq_some_iff_append.1 hb
    refine ⟨⟨List.mem_append_right _ List.mem_cons_self, hpb⟩, ?_⟩
    rintro c ⟨hc, hpc⟩
    rcases List.mem_append.1 hc with hc | hc
    · have hno := hbefore c hc
      rw [hpc] at hno
      cases hno
    rcases List.mem_cons.1 hc with rfl | hc
    · exact le_rfl
    · have hafter := (List.pairwise_append.1 h).2.1
      exact ((List.pairwise_cons.1 hafter).1 c hc).le
  constructor
  · exact hleast
  · intro ha
    have hsome : (l.find? p).isSome := List.find?_isSome.2 ⟨a, ha.1.1, ha.1.2⟩
    obtain ⟨b, hb⟩ := Option.isSome_iff_exists.1 hsome
    rw [hb, (hleast hb).unique ha]

end

end TourPricing
