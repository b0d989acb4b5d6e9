import TourPricing.Proofs.Clock
import TourPricing.Proofs.Search.Settling

namespace TourPricing

theorem product_map_left {β γ δ : Type} (f : β → γ) (l : List β) (l' : List δ) :
    (l.map f).product l' = (l.product l').map fun p => (f p.1, p.2) := by
  simp only [List.product, List.flatMap_map, List.map_flatMap, List.map_map, Function.comp_def]

namespace Search

variable {α : Type} [Scalar α] {S : Search α}

def labelAt (S : Search α) (nodes : List (Node α)) (id : Nat) : Label α :=
  S.labelOf ((backtrack? nodes id).getD [])

theorem Chain.labelAt_eq {nodes : List (Node α)} {id : Nat} {legs : List Leg}
    (h : Chain nodes id legs) : S.labelAt nodes id = S.labelOf legs := by
  rw [labelAt, h.backtrack?_eq, Option.getD_some]

namespace Arena

/-- What buckets compare of a label is the same if it is looked up by its number. -/
def Reads (nodes : List (Node α)) (f : Nat → Label α) (id : Nat) : Prop :=
  ∃ node, nodes[id]? = some node ∧ node.cost = (f id).cost ∧ node.trail = (f id).trail

theorem reads_of_stands {nodes next : List (Node α)} {id : Nat} {node : Node α} {legs : List Leg}
    (h : S.Stands nodes id node legs) (hnode : nodes[id]? = some node) (hnext : nodes <+: next) :
    Reads nodes (S.labelAt next) id := by
  refine ⟨node, hnode, ?_⟩
  rw [(h.mono hnext).chain.labelAt_eq]
  exact ⟨h.cost, h.trail⟩

section

variable {rule : VisitRule} {limit : Nat} {nodes : List (Node α)} {bucket : List Nat} {x : Node α}
  {f : Nat → Label α} {id : Nat}

omit [Scalar α] in
theorem Reads.append (h : Reads nodes f id) (added : List (Node α)) :
    Reads (nodes ++ added) f id := by
  obtain ⟨node, hnode, hsame⟩ := h
  exact ⟨node, getElem?_append_of_eq_some hnode added, hsame⟩

theorem Reads.covers_eq (h : Reads nodes f id) {y : Label α} (hcost : x.cost = y.cost)
    (htrail : x.trail = y.trail) :
    ((nodes[id]?).any fun old => old.label.covers rule x.label) = (f id).covers rule y ∧
      ((nodes[id]?).any fun old => x.label.covers rule old.label) = y.covers rule (f id) := by
  obtain ⟨node, hnode, hcost', htrail'⟩ := h
  rw [hnode]
  simp only [Option.any_some, Label.covers, Node.label, hcost, htrail, hcost', htrail', and_self]

omit [Scalar α] in
theorem costs_eq (h : ∀ id ∈ bucket, Reads nodes f id) :
    (bucket.filterMap fun id => (nodes[id]?).map Node.label).map (·.cost) =
      (bucket.map f).map (·.cost) := by
  induction bucket with
  | nil => rfl
  | cons id rest ih =>
    obtain ⟨⟨node, hnode, hcost, _⟩, hrest⟩ := List.forall_mem_cons.1 h
    have hsome : (nodes[id]?).map Node.label = some node.label := by rw [hnode, Option.map_some]
    rw [List.filterMap_cons]
    simp only [hsome, List.map_cons, ih hrest, ← hcost, Node.label]

theorem insert_agrees (hbucket : ∀ id ∈ bucket, Reads nodes f id)
    (hx : Reads (nodes ++ [x]) f nodes.length) :
    Bucket.insert rule limit (bucket.map f) (f nodes.length) =
      ((insert rule limit nodes bucket x).bucket.map f,
        (insert rule limit nodes bucket x).cut) := by
  obtain ⟨node, hnode, hcost, htrail⟩ := hx
  rw [List.getElem?_concat_length, Option.some.injEq] at hnode
  subst hnode
  have hany : (bucket.any fun id => (nodes[id]?).any fun old => old.label.covers rule x.label) =
      (bucket.map f).any (·.covers rule (f nodes.length)) := by
    rw [List.any_map, Bool.eq_iff_iff, List.any_eq_true, List.any_eq_true]
    refine exists_congr fun id => and_congr_right fun hid => ?_
    rw [((hbucket id hid).covers_eq hcost htrail).1, Function.comp]
  have hkept : ((bucket.map f).filter fun old => !(f nodes.length).covers rule old) =
      (bucket.filter fun id =>
        !(nodes[id]?).any fun old => x.label.covers rule old.label).map f := by
    rw [List.filter_map]
    refine congrArg _ (List.filter_congr fun id hid => ?_)
    rw [((hbucket id hid).covers_eq hcost htrail).2, Function.comp]
  have hlast : (nodes ++ [x]).length - 1 = nodes.length := by
    rw [List.length_append, List.length_singleton, Nat.add_sub_cancel]
  simp only [Bucket.insert, insert, hany, hkept, hlast]
  split
  · rfl
  · have hall : ∀ id ∈ (bucket.filter fun id =>
        !(nodes[id]?).any fun old => x.label.covers rule old.label) ++ [nodes.length],
        Reads (nodes ++ [x]) f id := by
      refine List.forall_mem_append.2 ⟨fun id hid => ?_, List.forall_mem_singleton.2 ?_⟩
      · exact (hbucket id (List.mem_filter.1 hid).1).append [x]
      · exact ⟨x, List.getElem?_concat_length, hcost, htrail⟩
    rw [← List.map_singleton, ← List.map_append, List.length_map,
      ← Bucket.costliest_congr (costs_eq hall), Bucket.swapRemove_map]
    split <;> rfl

theorem offer_agrees {s : Stop} {legs : List Leg} (hbucket : ∀ id ∈ bucket, Reads nodes f id)
    (hx : Reads (nodes ++ [x]) f nodes.length) (hlegs : f nodes.length = S.labelOf legs) :
    S.offer (bucket.map f) legs s =
      ((offer S nodes bucket s x).bucket.map f, (offer S nodes bucket s x).cut) := by
  rw [Search.offer, offer, ← hlegs, insert_agrees hbucket hx]
  split
  · rw [List.map_append, List.map_singleton]
  · rfl

end

/-- The state of the search whose labels carry their legs. -/
def view (S : Search α) (A : Arena α) : Frontier (List (Label α)) × Progress α :=
  (A.waiting.map (List.map (S.labelAt A.nodes)),
    ⟨A.closed.map (S.labelAt A.nodes), A.leastEdgeCost, A.exhaustive⟩)

namespace Orderly

variable {A B : Arena α}

theorem exists_stands (hA : Orderly S A) {entry : Stop × List Nat}
    (he : Houses S.expansion.network A.nodes entry) {id : Nat} (hid : id ∈ entry.2) :
    ∃ node legs, A.nodes[id]? = some node ∧ node.stop S.expansion.network = entry.1 ∧
      S.Stands A.nodes id node legs := by
  obtain ⟨node, hnode, hstop⟩ := he.mem id hid
  obtain ⟨legs, hlegs⟩ := hA.stands id node hnode
  exact ⟨node, legs, hnode, hstop, hlegs⟩

theorem labelAt_eq (hA : Orderly S A) {entry : Stop × List Nat}
    (he : Houses S.expansion.network A.nodes entry) {next : List (Node α)}
    (hnext : A.nodes <+: next) {id : Nat} (hid : id ∈ entry.2) :
    S.labelAt A.nodes id = S.labelAt next id := by
  obtain ⟨node, legs, _, _, hlegs⟩ := hA.exists_stands he hid
  rw [hlegs.chain.labelAt_eq, (hlegs.mono hnext).chain.labelAt_eq]

theorem view_eq (hA : Orderly S A) {next : List (Node α)} (hnext : A.nodes <+: next) :
    A.view S = (A.waiting.map (List.map (S.labelAt next)),
      ⟨A.closed.map (S.labelAt next), A.leastEdgeCost, A.exhaustive⟩) := by
  have hwaiting : A.waiting.map (List.map (S.labelAt A.nodes)) =
      A.waiting.map (List.map (S.labelAt next)) :=
    Frontier.map_congr fun entry he => List.map_congr_left fun id hid =>
      hA.labelAt_eq (hA.waits entry he) hnext hid
  have hclosed : A.closed.map (S.labelAt A.nodes) = A.closed.map (S.labelAt next) := by
    refine List.map_congr_left fun id hid => ?_
    obtain ⟨entry, he, _, hmem⟩ := hA.closed id hid
    exact hA.labelAt_eq (hA.settled entry he) hnext hmem
  rw [view, hwaiting, hclosed]

section

variable {id : Nat} {node : Node α} {leg : Leg} {legs : List Leg}

theorem view_extend_of_mayTake (hA : Orderly S A) (hnode : A.nodes[id]? = some node)
    (hlegs : S.Stands A.nodes id node legs)
    (hl : leg ∈ S.expansion.outgoing (node.stop S.expansion.network)) (hm : S.MayTake legs leg)
    (hB : Orderly S (A.extend S id node leg)) :
    (A.extend S id node leg).view S = S.extendBy (S.labelOf legs) (A.view S) leg := by
  obtain ⟨ha, hadmits⟩ := hm
  rw [← hlegs.trail] at hadmits
  have hx := hlegs.extend (List.getElem?_eq_some_iff.1 hnode).1 hl ha hadmits
  have hnext := (offered_offer S A.nodes ((A.waiting.get? leg.head).getD []) leg.head
    (node.extend S.rule.memory id leg (S.cost leg.edge))).isPrefix_concat
  have hbucket : ∀ i ∈ (A.waiting.get? leg.head).getD [], Reads A.nodes (S.labelAt
      (A.nodes ++ [node.extend S.rule.memory id leg (S.cost leg.edge)])) i := by
    intro i hi
    obtain ⟨_, _, hget, _, hstands⟩ := hA.exists_stands (hA.houses_get? leg.head) hi
    exact reads_of_stands hstands hget (List.prefix_append _ _)
  have hget (f : Nat → Label α) : ((A.waiting.map (List.map f)).get? leg.head).getD [] =
      ((A.waiting.get? leg.head).getD []).map f := by
    rw [Frontier.get?_map]
    cases A.waiting.get? leg.head <;> rfl
  rw [extend_of_admits S A id ha hadmits] at hB ⊢
  rw [hB.view_eq hnext, hA.view_eq (List.prefix_append _ _),
    extendBy_of_mayTake ⟨ha, hlegs.trail ▸ hadmits⟩, hget,
    offer_agrees hbucket (reads_of_stands hx List.getElem?_concat_length List.prefix_rfl)
      hx.chain.labelAt_eq, Frontier.map_set]
  rfl

/-- The extension of a label by a leg is the same in both searches. -/
theorem view_extend (hA : Orderly S A) (hnode : A.nodes[id]? = some node)
    (hl : leg ∈ S.expansion.outgoing (node.stop S.expansion.network))
    (hB : Orderly S (A.extend S id node leg)) :
    (A.extend S id node leg).view S = S.extendBy (S.labelAt A.nodes id) (A.view S) leg := by
  obtain ⟨legs, hlegs⟩ := hA.stands id node hnode
  rw [hlegs.chain.labelAt_eq]
  cases ha : S.allows leg with
  | false =>
    rw [view, view, extendBy_of_not_allows ha]
    simp [extend, ha]
  | true =>
    by_cases hm : S.MayTake legs leg
    · exact hA.view_extend_of_mayTake hnode hlegs hl hm hB
    · have hv : leg.head.vertex ≠ S.expansion.network.source := fun hv => hm ⟨ha, .inl hv⟩
      have hr : S.rule.admits node.trail leg.head.vertex = false :=
        Bool.eq_false_iff.2 fun hr => hm ⟨ha, .inr (hlegs.trail ▸ hr)⟩
      rw [view, view, extendBy_of_not_mayTake ha hm]
      simp [extend, ha, hv, hr, Progress.look]

end

theorem step_todo (hA : Orderly S A) (h : S.expansion.network.WellFormed) {id : Nat} {leg : Leg}
    {todo : List (Nat × Leg)} (htodo : A.todo = (id, leg) :: todo) :
    ∃ B, A.step? S = some B ∧ Orderly S B ∧ Later S.expansion.network A B ∧ B.todo = todo ∧
      B.view S = S.extendBy (S.labelAt A.nodes id) (A.view S) leg := by
  obtain ⟨⟨entry, he, hid, hl⟩, hA'⟩ := hA.next htodo
  obtain ⟨node, hnode, hstop⟩ := (hA.settled entry (List.mem_of_head? he)).mem id hid
  have hextends := extends_extend S { A with todo } id node leg
  have hstep : A.step? S = some (extend S { A with todo } id node leg) := by
    rw [step?, htodo]
    simp only [hnode, Option.map_some]
  obtain ⟨hB, hlater⟩ := hA.of_step h (step_of_step? hstep)
  exact ⟨_, hstep, hB, hlater, hextends.todo_eq, hA'.view_extend hnode (hstop ▸ hl) hB⟩

theorem exists_tried (hA : Orderly S A) (h : S.expansion.network.WellFormed) :
    ∃ B, Reaches S A B ∧ B.todo = [] ∧
      B.view S = (A.todo.map fun e => (S.labelAt A.nodes e.1, e.2)).foldl
        (fun state p => S.extendBy p.1 state p.2) (A.view S) := by
  generalize htodo : A.todo = todo
  induction todo generalizing A with
  | nil => exact ⟨A, .refl, htodo, rfl⟩
  | cons e rest ih =>
    obtain ⟨id, leg⟩ := e
    obtain ⟨B, hstep, hB, hlater, hrest, hview⟩ := hA.step_todo h htodo
    obtain ⟨C, hreach, hdone, hviewC⟩ := ih hB hrest
    have hlabels : rest.map (fun e => (S.labelAt B.nodes e.1, e.2)) =
        rest.map fun e => (S.labelAt A.nodes e.1, e.2) := by
      refine List.map_congr_left fun e he => ?_
      obtain ⟨entry, hentry, hmem, _⟩ := hA.todo e (htodo ▸ List.mem_cons_of_mem _ he)
      rw [hA.labelAt_eq (hA.settled entry (List.mem_of_head? hentry)) hlater.nodes hmem]
    rw [hlabels, hview] at hviewC
    exact ⟨C, .head hstep hreach, hdone, hviewC⟩

theorem exists_settled (hA : Orderly S A) (h : S.expansion.network.WellFormed)
    (htodo : A.todo = []) {s : Stop} {ids : List Nat} {others : List (Stop × List Nat)}
    (hentries : A.waiting.entries = (s, ids) :: others) :
    ∃ B, Reaches S A B ∧ B.todo = [] ∧ B.view S = S.settle s (ids.map (S.labelAt A.nodes))
      ((Frontier.mk others).map (List.map (S.labelAt A.nodes))) (A.view S).2 := by
  cases ht : S.expansion.network.isTerminal s with
  | true =>
    have hstep : A.step? S = some { A with
        waiting := ⟨others⟩
        settled := (s, ids) :: A.settled
        closed := A.closed ++ ids } := by
      simp only [step?, htodo, hentries, ht, if_true]
    refine ⟨_, .single hstep, htodo, ?_⟩
    rw [settle_of_terminal ht, view, List.map_append]
    rfl
  | false =>
    have hstep : A.step? S = some { A with
        waiting := ⟨others⟩
        settled := (s, ids) :: A.settled
        todo := ids.product (S.expansion.outgoing s) } := by
      simp only [step?, htodo, hentries, ht, Bool.false_eq_true, if_false]
    obtain ⟨hB, _⟩ := hA.of_step h (step_of_step? hstep)
    obtain ⟨C, hreach, hdone, hview⟩ := hB.exists_tried h
    refine ⟨C, .head hstep hreach, hdone, ?_⟩
    rw [hview, settle_eq_foldl ht, product_map_left]
    rfl

end Orderly

theorem view_start (S : Search α) : (start S.expansion.network).view S =
    (.single S.expansion.network.start
      [Label.start S.expansion.network.dimension S.expansion.network.source],
      ⟨[], none, true⟩) := by
  have hlabel : S.labelAt (start S.expansion.network).nodes 0 =
      Label.start S.expansion.network.dimension S.expansion.network.source :=
    (Stands.start.chain.labelAt_eq).trans S.labelOf_nil.symm
  rw [← hlabel]
  rfl

/-- A state between two settled stops that both searches come to. -/
def Shared (S : Search α) (state : Frontier (List (Label α)) × Progress α) : Prop :=
  ∃ A, Reaches S (start S.expansion.network) A ∧ A.todo = [] ∧ A.view S = state

theorem Shared.settle (h : S.expansion.network.WellFormed) {s : Stop} {bucket : List (Label α)}
    {rest : List (Stop × List (Label α))} {progress : Progress α}
    (hstate : Shared S (⟨(s, bucket) :: rest⟩, progress)) :
    Shared S (S.settle s bucket ⟨rest⟩ progress) := by
  obtain ⟨A, hreach, htodo, hview⟩ := hstate
  obtain ⟨hwaiting, rfl⟩ := Prod.mk.inj hview
  obtain ⟨⟨t, ids⟩, others, hentries, hfirst, rfl⟩ :=
    List.map_eq_cons_iff.1 (congrArg Frontier.entries hwaiting)
  obtain ⟨rfl, rfl⟩ := Prod.mk.inj hfirst
  have hA := ((orderly_start h).of_reaches h hreach).1
  obtain ⟨B, hB, hdone, hviewB⟩ := hA.exists_settled h htodo hentries
  exact ⟨B, hreach.trans hB, hdone, hviewB⟩

/-- A search by numbers comes to an end, where it has found what the search finds. -/
theorem exists_final (h : S.expansion.network.WellFormed) :
    ∃ final, Reaches S (start S.expansion.network) final ∧ final.todo = [] ∧
      final.waiting.entries = [] ∧ (final.view S).2 = S.explore := by
  obtain ⟨F, hF, _, final, hreach, htodo, hview⟩ := explore_induction (I := Shared S) h
    ⟨_, .refl, rfl, view_start S⟩ fun _ _ _ _ _ hstate => hstate.settle h
  obtain ⟨rfl, _⟩ := Prod.mk.inj hview
  exact ⟨final, hreach, htodo, List.map_eq_nil_iff.1 hF, congrArg Prod.snd hview⟩

structure Found (S : Search α) (nodes : List (Node α)) (found : Nat × Node α) : Prop where
  cost : (S.labelAt nodes found.1).cost = found.2.cost
  route : (backtrack? nodes found.1).map Route.mk = some (S.labelAt nodes found.1).route

theorem found_of_stands {nodes : List (Node α)} {id : Nat} {node : Node α} {legs : List Leg}
    (h : S.Stands nodes id node legs) : Found S nodes (id, node) := by
  constructor
  case cost => rw [h.chain.labelAt_eq, labelOf, h.cost]
  case route =>
    rw [h.chain.labelAt_eq, h.chain.backtrack?_eq, Option.map_some, Label.route, labelOf,
      List.reverse_reverse]

section

variable {nodes : List (Node α)} {all : List (Nat × Node α)}

theorem cheapest_map (h : ∀ found ∈ all, Found S nodes found) (threshold : α) (count : Nat) :
    (((all.mergeSort fun a b => Scalar.rankLE a.2.cost b.2.cost).filter
        (·.2.cost < threshold)).take count).map (fun found => S.labelAt nodes found.1) =
      (((all.map fun found => S.labelAt nodes found.1).mergeSort Label.rankLE).filter
        (·.cost < threshold)).take count := by
  have hranked : (all.mergeSort fun a b => Scalar.rankLE a.2.cost b.2.cost).map
      (fun found => S.labelAt nodes found.1) =
        (all.map fun found => S.labelAt nodes found.1).mergeSort Label.rankLE :=
    List.map_mergeSort fun a ha b hb => by rw [Label.rankLE, (h a ha).cost, (h b hb).cost]
  rw [← hranked, List.filter_map, List.map_take]
  congr 2
  refine List.filter_congr fun found hfound => ?_
  rw [Function.comp, (h found (List.mem_mergeSort.1 hfound)).cost]

theorem mapM_backtrack? (h : ∀ found ∈ all, Found S nodes found) :
    (all.mapM fun found =>
      (backtrack? nodes found.1).map fun legs => (found.2.cost, Route.mk legs)) =
    some ((all.map fun found => S.labelAt nodes found.1).map fun label =>
      (label.cost, label.route)) := by
  rw [List.map_map]
  refine mapM_eq_some_of_forall₂ (List.forall₂_map_right_iff.2 (List.forall₂_same.2 ?_))
  intro found hfound
  obtain ⟨legs, hlegs, hroute⟩ := Option.map_eq_some_iff.1 (h found hfound).route
  rw [hlegs, Option.map_some, Function.comp, (h found hfound).cost, ← hroute]

end

theorem Orderly.exists_found {A : Arena α} (hA : Orderly S A) :
    ∃ all, A.closed.mapM (fun id => (A.nodes[id]?).map fun node => (id, node)) = some all ∧
      (∀ found ∈ all, Found S A.nodes found) ∧
      all.map (fun found => S.labelAt A.nodes found.1) = A.closed.map (S.labelAt A.nodes) := by
  have hclosed : ∀ id ∈ A.closed, ∃ found : Nat × Node α,
      (A.nodes[id]?).map (fun node => (id, node)) = some found ∧ found.1 = id ∧
        Found S A.nodes found := by
    intro id hid
    obtain ⟨entry, he, _, hmem⟩ := hA.closed id hid
    obtain ⟨node, legs, hnode, _, hlegs⟩ := hA.exists_stands (hA.settled entry he) hmem
    exact ⟨(id, node), by rw [hnode, Option.map_some], rfl, found_of_stands hlegs⟩
  obtain ⟨all, hall⟩ := exists_forall₂ hclosed
  refine ⟨all, mapM_eq_some_of_forall₂ (hall.imp fun _ _ hb => hb.1),
    forall_right_of_forall₂ hall fun _ _ hb => hb.2.2, ?_⟩
  exact (map_eq_of_forall₂ hall fun _ _ hb => by rw [hb.2.1]).symm

theorem Orderly.result?_eq {A : Arena α} (hA : Orderly S A) (hview : (A.view S).2 = S.explore) :
    A.result? S = some S.run := by
  obtain ⟨all, hlookup, hfound, hlabels⟩ := hA.exists_found
  have hchosen : ∀ found ∈ ((all.mergeSort fun a b => Scalar.rankLE a.2.cost b.2.cost).filter
      (·.2.cost < S.limits.threshold)).take S.limits.maxPaths, Found S A.nodes found := by
    intro found hmem
    exact hfound found (List.mem_mergeSort.1 (List.mem_filter.1 (List.mem_of_mem_take hmem)).1)
  rw [result?, hlookup, run, ← hview, view, ← hlabels, ← cheapest_map hfound]
  simp only [Option.bind_eq_bind, Option.bind_some, mapM_backtrack? hchosen]
  rfl

/-- A state of a search that settles each stop once and extends each label once. -/
structure Settles (S : Search α) (A : Arena α) : Prop where
  /-- The stops are settled in strict order of time and then of vertex. -/
  rising : (A.settled.map (·.1)).Pairwise fun later earlier => earlier.before later = true
  waits_later : ∀ entry ∈ A.waiting.entries, ∀ done ∈ A.settled, done.1.before entry.1 = true
  once : (A.settled.flatMap (·.2)).Nodup
  /-- What is extended are the labels at the stop that was settled last, by each leg once. -/
  extends_last : A.todo.Nodup ∧ ∀ extension ∈ A.todo, ∃ entry ∈ A.settled.head?,
    extension.1 ∈ entry.2 ∧ extension.2 ∈ S.expansion.outgoing entry.1
  goes_on : A.step? S = none ↔ A.todo = [] ∧ A.waiting.entries = []
  /-- A label has its parent before it in the arena and, by a leg, at an earlier time. -/
  descends : ∀ (id : Nat) (node : Node α) (extension : Nat × Leg), A.nodes[id]? = some node →
    node.parent = some extension → extension.1 < id ∧
      ∃ parent, A.nodes[extension.1]? = some parent ∧
        extension.2 ∈ S.expansion.outgoing (parent.stop S.expansion.network) ∧
        (parent.stop S.expansion.network).time < (node.stop S.expansion.network).time
  /-- The parents of labels are in buckets that were settled, and wait nowhere. -/
  kept : ∀ (id : Nat) (node : Node α) (extension : Nat × Leg), A.nodes[id]? = some node →
    node.parent = some extension → (∃ done ∈ A.settled, extension.1 ∈ done.2) ∧
      ∀ entry ∈ A.waiting.entries, extension.1 ∉ entry.2
  backtracks : ∀ id node, A.nodes[id]? = some node →
    ∃ legs, backtrack? A.nodes id = some legs ∧ S.Stands A.nodes id node legs

theorem Orderly.settles {A : Arena α} (hA : Orderly S A) (h : S.expansion.network.WellFormed) :
    Settles S A := by
  constructor
  case rising => exact List.pairwise_map.2 hA.rising
  case waits_later => exact fun entry he => (hA.waiting.all entry he).2
  case once => exact hA.nodup_settled
  case extends_last => exact ⟨hA.todo_nodup, hA.todo⟩
  case goes_on => exact hA.step?_eq_none_iff
  case descends => exact fun id node extension => hA.exists_parent h
  case kept =>
    intro id node extension hid hparent
    obtain ⟨done, hdone, _, hmem⟩ := (hA.parents id node extension hid hparent).mem
    exact ⟨⟨done, hdone, hmem⟩, fun entry he => hA.not_mem_waiting hdone hmem he⟩
  case backtracks =>
    intro id node hid
    obtain ⟨legs, hlegs⟩ := hA.stands id node hid
    exact ⟨legs, hlegs.chain.backtrack?_eq, hlegs⟩

/-- In every state of a search on an expansion that can be built, each stop was settled once, and no
label comes to a settled stop or leaves it afterwards. Every search comes to an end, and what it
then reads back from parent to parent is the result. -/
theorem settles_of_reaches {name : String} {dimension source horizon : Nat} {arcs : List Arc}
    {limit : Option Nat} {N : Network} (S : Search α)
    (hN : Network.ofArcs name dimension source arcs limit = .ok N)
    (hE : Expansion.build? N horizon = some S.expansion) :
    (∀ A, Reaches S (start S.expansion.network) A → Settles S A ∧
      ∀ B, Reaches S A B → Later S.expansion.network A B) ∧
    ∃ final, (∀ A, Reaches S (start S.expansion.network) A → Reaches S A final) ∧
      final.step? S = none ∧ final.result? S = some S.run := by
  have h := Network.wellFormed_of_ofArcs hN
  rw [← (Expansion.of_build? hE).1] at h
  have horderly (A : Arena α) (hA : Reaches S (start S.expansion.network) A) : Orderly S A :=
    ((orderly_start h).of_reaches h hA).1
  constructor
  · exact fun A hA => ⟨(horderly A hA).settles h, fun B hB => ((horderly A hA).of_reaches h hB).2⟩
  · obtain ⟨final, hfinal, htodo, hentries, hview⟩ := exists_final h
    have hhalt := (horderly final hfinal).step?_eq_none_iff.2 ⟨htodo, hentries⟩
    refine ⟨final, fun A hA => ?_, hhalt, (horderly final hfinal).result?_eq hview⟩
    rcases Relation.ReflTransGen.total_of_right_unique
      (fun _ _ _ hB hC => Option.some.inj (hB.symm.trans hC)) hA hfinal with hrest | hrest
    · exact hrest
    · rcases hrest.cases_head with rfl | ⟨B, hstep, _⟩
      · exact .refl
      · rw [hhalt] at hstep
        cases hstep

end Arena

/-- The search on the triangle by numbers comes to an end with the two walks around it. -/
theorem settles_triangle : Expansion.build? Network.triangle 10 = some triangle.expansion ∧
    ∃ final, Arena.Reaches triangle (.start Network.triangle) final ∧
      Arena.Settles triangle final ∧
      ∃ result, final.result? triangle = some result ∧ result.paths.length = 2 := by
  have hE : Expansion.build? Network.triangle 10 = some triangle.expansion :=
    Expansion.build?_of_all (by decide +kernel)
  obtain ⟨hsettles, final, hfinal, _, hresult⟩ :=
    Arena.settles_of_reaches triangle Network.ofArcs_triangle hE
  have hreach := hfinal _ .refl
  refine ⟨hE, final, hreach, (hsettles final hreach).1, triangle.run, hresult, ?_⟩
  rw [run_paths_length]
  decide +kernel

end Search

end TourPricing
