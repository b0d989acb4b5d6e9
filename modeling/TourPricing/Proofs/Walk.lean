import Mathlib.Data.List.Chain
import TourPricing.Expansion
import TourPricing.Proofs.Frontier

namespace TourPricing

variable {N : Network} {horizon : Nat} {s : Stop} {leg : Leg}

namespace Network

theorem isTerminal_iff : N.isTerminal s = true ↔ s.vertex = N.source ∧ 0 < s.time := by
  simp [isTerminal]

def visits (N : Network) (legs : List Leg) : List Nat :=
  N.source :: legs.map (·.head.vertex)

@[simp] theorem visits_snoc (legs : List Leg) (leg : Leg) :
    N.visits (legs ++ [leg]) = N.visits legs ++ [leg.head.vertex] := by
  simp [visits]

namespace WellFormed

theorem mem_legsFrom (h : N.WellFormed) : leg ∈ N.legsFrom horizon s ↔
    N.isTerminal s = false ∧
      ∃ e ∈ N.edges, e.source = s.vertex ∧ e.departAt s.time = leg ∧ leg.head.time ≤ horizon := by
  rw [legsFrom]
  split
  · rename_i ht
    simp [ht]
  · rename_i ht
    simp only [Bool.not_eq_true] at ht
    simp only [List.mem_filter, List.mem_map, h.mem_outEdges, decide_eq_true_eq, ht, true_and]
    constructor
    · rintro ⟨⟨e, ⟨he, hs⟩, hleg⟩, hle⟩
      exact ⟨e, he, hs, hleg, hle⟩
    · rintro ⟨e, he, hs, hleg, hle⟩
      exact ⟨⟨e, ⟨he, hs⟩, hleg⟩, hle⟩

theorem tail_eq (h : N.WellFormed) (hl : leg ∈ N.legsFrom horizon s) : leg.tail = s := by
  obtain ⟨_, e, _, hs, rfl, _⟩ := h.mem_legsFrom.1 hl
  rw [Edge.departAt, hs]

theorem head_within (h : N.WellFormed) (hl : leg ∈ N.legsFrom horizon s) :
    leg.head.Within N.dimension horizon := by
  obtain ⟨_, e, he, _, rfl, hle⟩ := h.mem_legsFrom.1 hl
  exact ⟨(h.edge_ok e he).2.1, hle⟩

theorem time_lt (h : N.WellFormed) (hl : leg ∈ N.legsFrom horizon s) :
    s.time < leg.head.time := by
  obtain ⟨_, e, he, _, rfl, _⟩ := h.mem_legsFrom.1 hl
  exact Nat.lt_add_of_pos_right (h.edge_ok e he).2.2.2

theorem before_head (h : N.WellFormed) (hl : leg ∈ N.legsFrom horizon s) :
    s.before leg.head = true :=
  Stop.before_iff.2 (.inl (h.time_lt hl))

theorem not_terminal (h : N.WellFormed) (hl : leg ∈ N.legsFrom horizon s) :
    N.isTerminal s = false :=
  (h.mem_legsFrom.1 hl).1

theorem start_within (h : N.WellFormed) : N.start.Within N.dimension horizon :=
  ⟨h.source_lt, Nat.zero_le _⟩

theorem sweepLimit_eq (h : N.WellFormed) :
    N.sweepLimit horizon = (horizon + 1) * (N.dimension + 1) := by
  have hpos : N.edges.all (0 < ·.travelTime) = true := by
    rw [Array.all_eq_true_iff_forall_mem]
    exact fun e he => decide_eq_true (h.edge_ok e he).2.2.2
  rw [sweepLimit, if_pos hpos]

end WellFormed

end Network

theorem Route.isConnected_iff {legs : List Leg} :
    (Route.mk legs).isConnected = true ↔ legs.IsChain fun a b => a.head = b.tail := by
  induction legs with
  | nil => simp [isConnected]
  | cons a rest ih =>
    cases rest with
    | nil => simp [isConnected]
    | cons b rest =>
      rw [List.isChain_cons_cons, ← ih]
      simp [isConnected]

namespace Expansion

variable {E : Expansion} {may : List Leg → Leg → Prop} {legs : List Leg}

/-- A walk from the start to a stop: each leg leaves the stop where the one before it arrived, and
may be taken after the legs before it. -/
inductive Walk (E : Expansion) (may : List Leg → Leg → Prop) : List Leg → Stop → Prop
  | start : Walk E may [] E.network.start
  | step {legs : List Leg} {s : Stop} {leg : Leg} : Walk E may legs s → leg ∈ E.outgoing s →
      may legs leg → Walk E may (legs ++ [leg]) leg.head

namespace Walk

theorem eq_start (w : E.Walk may [] s) : s = E.network.start := by
  generalize hn : ([] : List Leg) = legs at w
  cases w with
  | start => rfl
  | step _ _ _ => exact absurd hn.symm (List.append_ne_nil_of_right_ne_nil _ (List.cons_ne_nil _ _))

theorem last (w : E.Walk may legs s) : ∀ leg ∈ legs.getLast?, leg.head = s := by
  cases w with
  | start => exact fun leg hl => nomatch hl
  | step _ _ _ =>
    intro leg hl
    rw [List.getLast?_concat, Option.mem_some_iff] at hl
    rw [hl]

theorem unique {t : Stop} (w : E.Walk may legs s) (w' : E.Walk may legs t) : s = t := by
  cases hl : legs.getLast? with
  | none =>
    obtain rfl := List.getLast?_eq_none_iff.1 hl
    rw [w.eq_start, w'.eq_start]
  | some leg => rw [← w.last leg hl, ← w'.last leg hl]

theorem split {before after : List Leg} (w : E.Walk may (before ++ leg :: after) s) :
    ∃ t, E.Walk may before t ∧ leg ∈ E.outgoing t ∧ may before leg := by
  generalize hlegs : before ++ leg :: after = legs at w
  induction w generalizing after with
  | start => exact absurd hlegs (List.append_ne_nil_of_right_ne_nil _ (List.cons_ne_nil _ _))
  | @step legs t last w hl hm ih =>
    rcases List.eq_nil_or_concat after with rfl | ⟨middle, b, rfl⟩
    · obtain ⟨rfl, hlast⟩ := List.append_inj' hlegs rfl
      obtain rfl := List.singleton_inj.1 hlast
      exact ⟨t, w, hl, hm⟩
    · rw [List.concat_eq_append, ← List.cons_append, ← List.append_assoc] at hlegs
      exact ih (List.append_inj' hlegs rfl).1

theorem may_of_mem (w : E.Walk may legs s) (hl : leg ∈ legs) : ∃ before, may before leg := by
  induction w with
  | start => exact nomatch hl
  | step _ _ hm ih =>
    rcases List.mem_append.1 hl with hl | hl
    · exact ih hl
    · exact ⟨_, List.mem_singleton.1 hl ▸ hm⟩

theorem of_chain (hchain : legs.IsChain fun a b => a.head = b.tail)
    (hfirst : ∀ leg ∈ legs.head?, leg.tail = E.network.start)
    (hout : ∀ leg ∈ legs, leg ∈ E.outgoing leg.tail)
    (hmay : ∀ before leg after, legs = before ++ leg :: after → may before leg) :
    ∃ s, E.Walk may legs s := by
  induction legs using List.reverseRecOn with
  | nil => exact ⟨_, .start⟩
  | append_singleton legs leg ih =>
    obtain ⟨hchain', _, hjoin⟩ := List.isChain_append.1 hchain
    obtain ⟨s, w⟩ := ih hchain'
      (fun l hl => hfirst l (by rw [List.head?_append, hl]; rfl))
      (fun l hl => hout l (List.mem_append_left _ hl))
      (fun before l after hl => hmay before l (after ++ [leg]) (by rw [hl]; simp))
    have htail : leg.tail = s := by
      cases hlast : legs.getLast? with
      | none =>
        obtain rfl := List.getLast?_eq_none_iff.1 hlast
        rw [hfirst leg rfl, w.eq_start]
      | some l => rw [← hjoin l hlast leg rfl, w.last l hlast]
    have hl := hout leg (List.mem_append_right _ List.mem_cons_self)
    exact ⟨_, w.step (htail ▸ hl) (hmay legs leg [] rfl)⟩

section

variable (h : E.network.WellFormed)

include h

theorem mem_outgoing (w : E.Walk may legs s) (hl : leg ∈ legs) : leg ∈ E.outgoing leg.tail := by
  induction w with
  | start => exact nomatch hl
  | step _ ho _ ih =>
    rcases List.mem_append.1 hl with hl | hl
    · exact ih hl
    · rw [List.mem_singleton.1 hl, h.tail_eq ho]
      exact ho

theorem chain (w : E.Walk may legs s) : legs.IsChain fun a b => a.head = b.tail := by
  induction w with
  | start => exact .nil
  | step w ho _ ih =>
    refine List.isChain_append.2 ⟨ih, .singleton _, fun a ha b hb => ?_⟩
    rw [List.head?_singleton, Option.mem_some_iff] at hb
    rw [← hb, w.last a ha, h.tail_eq ho]

theorem first (w : E.Walk may legs s) : ∀ leg ∈ legs.head?, leg.tail = E.network.start := by
  induction w with
  | start => exact fun leg hl => nomatch hl
  | @step legs s leg w ho _ ih =>
    intro first hf
    cases legs with
    | nil =>
      rw [List.nil_append, List.head?_singleton, Option.mem_some_iff] at hf
      rw [← hf, h.tail_eq ho, w.eq_start]
    | cons a rest => exact ih first hf

theorem head_ne_source (w : E.Walk may legs s) (ht : E.network.isTerminal s = false)
    (hl : leg ∈ legs) : leg.head.vertex ≠ E.network.source := by
  induction w with
  | start => exact nomatch hl
  | step w ho _ ih =>
    rcases List.mem_append.1 hl with hl | hl
    · exact ih (h.not_terminal ho) hl
    · rw [List.mem_singleton.1 hl]
      intro hv
      have hpos := Nat.lt_of_le_of_lt (Nat.zero_le _) (h.time_lt ho)
      rw [Network.isTerminal_iff.2 ⟨hv, hpos⟩] at ht
      cases ht

theorem vertices_eq (w : E.Walk may legs s) (hne : legs ≠ []) :
    (Route.mk legs).vertices = E.network.visits legs := by
  cases legs with
  | nil => exact absurd rfl hne
  | cons a rest =>
    have ha : a.tail = E.network.start := w.first h a (Option.mem_some_iff.2 rfl)
    simp [Route.vertices, Network.visits, ha, Network.start]

theorem visits_lt (w : E.Walk may legs s) :
    ∀ v ∈ E.network.visits legs, v < E.network.dimension := by
  induction w with
  | start =>
    intro v hv
    rw [List.mem_singleton.1 hv]
    exact h.source_lt
  | step _ ho _ ih =>
    intro v hv
    rw [Network.visits_snoc] at hv
    rcases List.mem_append.1 hv with hv | hv
    · exact ih v hv
    · rw [List.mem_singleton.1 hv]
      exact (h.head_within ho).1

end

end Walk

end Expansion

def Frontier.Known {β : Type} (F : Frontier β) (settled : List Stop) (s : Stop) : Prop :=
  s ∈ settled ∨ (F.get? s).isSome = true

theorem Frontier.isSome_get?_foldl_set (legs : List Leg) (F : Frontier Unit) (t : Stop) :
    ((legs.foldl (fun F leg => F.set leg.head ()) F).get? t).isSome = true ↔
      (F.get? t).isSome = true ∨ ∃ leg ∈ legs, leg.head = t := by
  induction legs generalizing F with
  | nil => simp
  | cons leg rest ih =>
    rw [List.foldl_cons, ih, Frontier.get?_set]
    by_cases h : t = leg.head
    · simp [h]
    · simp [h, Ne.symm h]

theorem Frontier.Ordered.foldl_set {P : Stop → Prop} {legs : List Leg} {F : Frontier Unit}
    (h : F.Ordered P) (hl : ∀ leg ∈ legs, P leg.head) :
    (legs.foldl (fun F leg => F.set leg.head ()) F).Ordered P := by
  induction legs generalizing F with
  | nil => exact h
  | cons leg rest ih =>
    exact ih (h.set (hl leg List.mem_cons_self) ()) fun l hr => hl l (List.mem_cons_of_mem _ hr)

/-- The start is known to a sweep, and so is the end of every leg out of a settled stop. -/
structure Network.Explored (N : Network) (horizon : Nat) (F : Frontier Unit)
    (settled : List Stop) : Prop where
  start : F.Known settled N.start
  heads : ∀ s ∈ settled, ∀ leg ∈ N.legsFrom horizon s, F.Known settled leg.head

theorem Network.Explored.settle {rest : List (Stop × Unit)} {settled : List Stop}
    (hx : N.Explored horizon ⟨(s, ()) :: rest⟩ settled) :
    N.Explored horizon (N.settleStop horizon s () ⟨rest⟩ settled).1
      (N.settleStop horizon s () ⟨rest⟩ settled).2 := by
  have keep (t : Stop) (ht : (Frontier.mk ((s, ()) :: rest)).Known settled t) :
      (N.settleStop horizon s () ⟨rest⟩ settled).1.Known (s :: settled) t := by
    rcases ht with ht | ht
    · exact .inl (List.mem_cons_of_mem _ ht)
    · rw [Frontier.get?_cons] at ht
      by_cases hts : t = s
      · exact .inl (hts ▸ List.mem_cons_self)
      · rw [if_neg hts] at ht
        exact .inr ((Frontier.isSome_get?_foldl_set _ _ t).2 (.inl ht))
  refine ⟨keep _ hx.start, fun t ht leg hl => ?_⟩
  rcases List.mem_cons.1 ht with ht | ht
  · rw [ht] at hl
    exact .inr ((Frontier.isSome_get?_foldl_set _ _ _).2 (.inr ⟨leg, hl, rfl⟩))
  · exact keep _ (hx.heads t ht leg hl)

/-- The stops that can be reached are closed under legs, and the start is one of them. -/
theorem Network.WellFormed.reachable_closed (h : N.WellFormed) :
    N.start ∈ N.reachable horizon ∧
      ∀ s ∈ N.reachable horizon, ∀ leg ∈ N.legsFrom horizon s, leg.head ∈ N.reachable horizon := by
  have hinit : N.Explored horizon (.single N.start ()) [] :=
    ⟨.inr (by simp [Frontier.single, Frontier.get?]), fun s hs => nomatch hs⟩
  obtain ⟨E, hE, hx⟩ := Frontier.sweep_empties (N.settleStop horizon)
    (fun s _ rest settled _ hord hx =>
      ⟨hord.foldl_set fun leg hl => ⟨h.head_within hl, h.before_head hl⟩, hx.settle⟩)
    (Frontier.Ordered.single h.start_within ()) hinit
  rw [← h.sweepLimit_eq] at hx
  have known (t : Stop) (ht : E.Known (N.reachable horizon).reverse t) :
      t ∈ N.reachable horizon := by
    rcases ht with ht | ht
    · exact List.mem_reverse.1 ht
    · rw [Frontier.get?, hE] at ht
      cases ht
  rw [reachable, List.reverse_reverse] at known
  exact ⟨known _ hx.start, fun s hs leg hl => known _ (hx.heads s (List.mem_reverse.1 hs) leg hl)⟩

theorem Expansion.Walk.mem_stops {E : Expansion} {may : List Leg → Leg → Prop} {legs : List Leg}
    (w : E.Walk may legs s) (h : E.network.WellFormed) : s ∈ E.stops := by
  rw [E.stops_eq]
  induction w with
  | start => exact h.reachable_closed.1
  | step _ ho _ ih => exact h.reachable_closed.2 _ ih _ ho

end TourPricing
