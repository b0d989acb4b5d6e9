import TourPricing.Frontier

namespace TourPricing

variable {β σ : Type} {n horizon : Nat}

theorem Stop.before_iff {a b : Stop} :
    a.before b = true ↔ a.time < b.time ∨ a.time = b.time ∧ a.vertex < b.vertex := by
  simp [Stop.before]

theorem Stop.before_trans {a b c : Stop} (hab : a.before b = true) (hbc : b.before c = true) :
    a.before c = true := by
  rw [Stop.before_iff] at *
  omega

theorem Stop.before_of_not_before {a b : Stop} (h : a.before b = false) (hne : a ≠ b) :
    b.before a = true := by
  cases a with
  | mk v t =>
    cases b with
    | mk w u =>
      have hvw : t = u → v ≠ w := fun ht hv => hne (by rw [ht, hv])
      rw [← Bool.not_eq_true, Stop.before_iff] at h
      rw [Stop.before_iff]
      simp only at h ⊢
      omega

def Stop.Within (n horizon : Nat) (s : Stop) : Prop :=
  s.vertex < n ∧ s.time ≤ horizon

def Stop.rank (n : Nat) (s : Stop) : Nat :=
  s.time * (n + 1) + s.vertex

theorem Stop.Within.rank_lt {s : Stop} (h : s.Within n horizon) :
    s.rank n < (horizon + 1) * (n + 1) := by
  have ht := Nat.mul_le_mul_right (n + 1) h.2
  have hv := h.1
  rw [Stop.rank, Nat.succ_mul]
  omega

theorem Stop.Within.rank_mono {s t : Stop} (hs : s.Within n horizon) (h : s.before t = true) :
    s.rank n < t.rank n := by
  have hv := hs.1
  rw [Stop.rank, Stop.rank]
  rcases Stop.before_iff.1 h with ht | ⟨ht, hvt⟩
  · have hm := Nat.mul_le_mul_right (n + 1) (Nat.succ_le_of_lt ht)
    rw [Nat.succ_mul] at hm
    omega
  · rw [ht]
    omega

namespace Frontier

theorem lookup_cons_eq (s t : Stop) (b : β) (rest : List (Stop × β)) :
    ((s, b) :: rest).lookup t = if t = s then some b else rest.lookup t := by
  by_cases h : t = s
  · rw [if_pos h, h, List.lookup_cons_self]
  · rw [if_neg h, List.lookup_cons, beq_false_of_ne h]

theorem lookup_insertEntry (s t : Stop) (b : β) (entries : List (Stop × β)) :
    (insertEntry s b entries).lookup t = if t = s then some b else entries.lookup t := by
  induction entries with
  | nil => exact lookup_cons_eq s t b []
  | cons entry rest ih =>
    obtain ⟨u, c⟩ := entry
    simp only [insertEntry]
    split
    · rename_i hsu
      subst hsu
      simp only [lookup_cons_eq]
      split <;> rfl
    · split
      · exact lookup_cons_eq s t b _
      · rename_i hsu _
        simp only [lookup_cons_eq, ih]
        by_cases hu : t = u
        · have hts : ¬ t = s := fun h => hsu (h.symm.trans hu)
          simp only [if_pos hu, if_neg hts]
        · simp only [if_neg hu]

theorem get?_set (F : Frontier β) (s t : Stop) (b : β) :
    (F.set s b).get? t = if t = s then some b else F.get? t :=
  lookup_insertEntry s t b F.entries

@[simp] theorem get?_set_self (F : Frontier β) (s : Stop) (b : β) :
    (F.set s b).get? s = some b := by
  rw [get?_set, if_pos rfl]

theorem get?_set_of_ne (F : Frontier β) {s t : Stop} (b : β) (h : t ≠ s) :
    (F.set s b).get? t = F.get? t := by
  rw [get?_set, if_neg h]

theorem get?_cons (s t : Stop) (b : β) (rest : List (Stop × β)) :
    (Frontier.mk ((s, b) :: rest)).get? t =
      if t = s then some b else (Frontier.mk rest).get? t :=
  lookup_cons_eq s t b rest

theorem mem_of_get? {F : Frontier β} {s : Stop} {b : β} (h : F.get? s = some b) :
    (s, b) ∈ F.entries := by
  obtain ⟨entries⟩ := F
  induction entries with
  | nil => cases h
  | cons entry rest ih =>
    obtain ⟨t, c⟩ := entry
    rw [get?_cons] at h
    split at h
    · rename_i hst
      cases h
      rw [hst]
      exact List.mem_cons_self
    · exact List.mem_cons_of_mem _ (ih h)

theorem mem_insertEntry {s : Stop} {b : β} {entries : List (Stop × β)} {entry : Stop × β}
    (h : entry ∈ insertEntry s b entries) : entry = (s, b) ∨ entry ∈ entries := by
  induction entries with
  | nil => exact .inl (List.mem_singleton.1 h)
  | cons first rest ih =>
    obtain ⟨u, c⟩ := first
    simp only [insertEntry] at h
    split at h
    · rcases List.mem_cons.1 h with h | h
      · exact .inl h
      · exact .inr (List.mem_cons_of_mem _ h)
    · split at h
      · exact List.mem_cons.1 h
      · rcases List.mem_cons.1 h with h | h
        · exact .inr (h ▸ List.mem_cons_self)
        · exact (ih h).imp_right (List.mem_cons_of_mem _)

theorem mem_set {F : Frontier β} {s : Stop} {b : β} {entry : Stop × β}
    (h : entry ∈ (F.set s b).entries) : entry = (s, b) ∨ entry ∈ F.entries :=
  mem_insertEntry h

theorem sorted_insertEntry {s : Stop} {b : β} {entries : List (Stop × β)}
    (h : entries.Pairwise fun x y => x.1.before y.1 = true) :
    (insertEntry s b entries).Pairwise fun x y => x.1.before y.1 = true := by
  induction entries with
  | nil => exact List.pairwise_singleton _ _
  | cons first rest ih =>
    obtain ⟨u, c⟩ := first
    obtain ⟨hu, hrest⟩ := List.pairwise_cons.1 h
    simp only [insertEntry]
    split
    · rename_i hsu
      subst hsu
      exact List.pairwise_cons.2 ⟨hu, hrest⟩
    · split
      · rename_i hsu
        apply List.pairwise_cons.2 ⟨_, h⟩
        intro x hx
        rcases List.mem_cons.1 hx with hx | hx
        · rw [hx]
          exact hsu
        · exact Stop.before_trans hsu (hu x hx)
      · rename_i hne hsu
        apply List.pairwise_cons.2 ⟨_, ih hrest⟩
        intro x hx
        rcases mem_insertEntry hx with hx | hx
        · rw [hx]
          exact Stop.before_of_not_before (Bool.eq_false_iff.2 hsu) hne
        · exact hu x hx

structure Ordered (P : Stop → Prop) (F : Frontier β) : Prop where
  sorted : F.entries.Pairwise fun x y => x.1.before y.1 = true
  all : ∀ entry ∈ F.entries, P entry.1

theorem Ordered.single {P : Stop → Prop} {s : Stop} (h : P s) (b : β) :
    (Frontier.single s b).Ordered P := by
  refine ⟨List.pairwise_singleton _ _, fun entry he => ?_⟩
  rw [List.mem_singleton.1 he]
  exact h

theorem Ordered.set {P : Stop → Prop} {F : Frontier β} {s : Stop} (h : F.Ordered P) (hs : P s)
    (b : β) : (F.set s b).Ordered P := by
  refine ⟨sorted_insertEntry h.sorted, fun entry he => ?_⟩
  rcases mem_set he with he | he
  · rw [he]
    exact hs
  · exact h.all entry he

theorem Ordered.mono {P Q : Stop → Prop} {F : Frontier β} (h : F.Ordered P)
    (hPQ : ∀ s, P s → Q s) : F.Ordered Q :=
  ⟨h.sorted, fun entry he => hPQ _ (h.all entry he)⟩

theorem Ordered.rest {P : Stop → Prop} {s : Stop} {b : β} {rest : List (Stop × β)}
    (h : (Frontier.mk ((s, b) :: rest)).Ordered P) :
    (Frontier.mk rest).Ordered fun t => P t ∧ s.before t = true := by
  obtain ⟨hs, hrest⟩ := List.pairwise_cons.1 h.sorted
  exact ⟨hrest, fun entry he => ⟨h.all entry (List.mem_cons_of_mem _ he), hs entry he⟩⟩

/-- A sweep keeps what each of its steps keeps, and in the end no stop waits any more, if every
step only adds stops that come later. -/
theorem sweep_empties (settle : Stop → β → Frontier β → σ → Frontier β × σ)
    {I : Frontier β → σ → Prop}
    (step : ∀ s b rest acc, s.Within n horizon →
      (Frontier.mk rest).Ordered (fun t => t.Within n horizon ∧ s.before t = true) →
      I ⟨(s, b) :: rest⟩ acc →
      (settle s b ⟨rest⟩ acc).1.Ordered (fun t => t.Within n horizon ∧ s.before t = true) ∧
        I (settle s b ⟨rest⟩ acc).1 (settle s b ⟨rest⟩ acc).2)
    {F : Frontier β} {acc : σ} (hF : F.Ordered (Stop.Within n horizon)) (hI : I F acc) :
    ∃ E : Frontier β, E.entries = [] ∧
      I E (sweep settle ((horizon + 1) * (n + 1)) F acc) := by
  suffices H : ∀ (k : Nat) (F : Frontier β) (acc : σ),
      F.Ordered (fun s => s.Within n horizon ∧ (horizon + 1) * (n + 1) ≤ k + s.rank n) →
      I F acc → ∃ E : Frontier β, E.entries = [] ∧ I E (sweep settle k F acc) from
    H _ F acc (hF.mono fun s hs => ⟨hs, Nat.le_add_right _ _⟩) hI
  intro k
  induction k with
  | zero =>
    intro F acc hF hI
    obtain ⟨_ | ⟨⟨s, b⟩, rest⟩⟩ := F
    · exact ⟨⟨[]⟩, rfl, hI⟩
    · obtain ⟨hs, hle⟩ := hF.all (s, b) List.mem_cons_self
      have hlt := hs.rank_lt
      omega
  | succ k ih =>
    intro F acc hF hI
    obtain ⟨_ | ⟨⟨s, b⟩, rest⟩⟩ := F
    · exact ⟨⟨[]⟩, rfl, hI⟩
    · obtain ⟨hs, hle⟩ := hF.all (s, b) List.mem_cons_self
      obtain ⟨hord, hstep⟩ :=
        step s b rest acc hs (hF.rest.mono fun t ht => ⟨ht.1.1, ht.2⟩) hI
      refine ih _ _ (hord.mono fun t ht => ⟨ht.1, ?_⟩) hstep
      have hlt := hs.rank_mono ht.2
      omega

end Frontier

end TourPricing
