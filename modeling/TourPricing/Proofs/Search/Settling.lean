import TourPricing.Proofs.Expansion.Reachability
import TourPricing.Proofs.Search.Arena

namespace TourPricing

theorem Stop.not_before_self (s : Stop) : s.before s = false := by
  rw [← Bool.not_eq_true, Stop.before_iff]
  omega

namespace Search

variable {α : Type}

namespace Arena

section

variable {N : Network} {nodes next : List (Node α)} {bucket left : List Nat} {x y : Node α}
  {id : Nat}

theorem Offered.get?_cases (h : Offered nodes bucket x next left) (hid : next[id]? = some y) :
    nodes[id]? = some y ∨ id = nodes.length ∧ y = x ∧ next = nodes ++ [x] := by
  cases h with
  | needless => exact .inl hid
  | numbered =>
    rw [List.getElem?_append] at hid
    split at hid
    · exact .inl hid
    · rename_i hle
      obtain ⟨hlt, hy⟩ := List.getElem?_eq_some_iff.1 hid
      rw [List.length_singleton] at hlt
      refine .inr ⟨by omega, ?_, rfl⟩
      rw [← hy, List.getElem_singleton]

theorem Offered.isPrefix (h : Offered nodes bucket x next left) : nodes <+: next := by
  cases h with
  | needless => exact List.prefix_rfl
  | numbered => exact List.prefix_append _ _

theorem Offered.isPrefix_concat (h : Offered nodes bucket x next left) : next <+: nodes ++ [x] := by
  cases h with
  | needless => exact List.prefix_append _ _
  | numbered => exact List.prefix_rfl

structure Houses (N : Network) (nodes : List (Node α)) (entry : Stop × List Nat) : Prop where
  nodup : entry.2.Nodup
  mem : ∀ id ∈ entry.2, ∃ node, nodes[id]? = some node ∧ node.stop N = entry.1

theorem Houses.mono {entry : Stop × List Nat} (h : Houses N nodes entry) (hnext : nodes <+: next) :
    Houses N next entry := by
  obtain ⟨added, rfl⟩ := hnext
  refine ⟨h.nodup, fun id hid => ?_⟩
  obtain ⟨node, hnode, hstop⟩ := h.mem id hid
  exact ⟨node, getElem?_append_of_eq_some hnode added, hstop⟩

theorem Houses.stop_eq {entry other : Stop × List Nat} (he : Houses N nodes entry)
    (ho : Houses N nodes other) (hid : id ∈ entry.2) (hid' : id ∈ other.2) : entry.1 = other.1 := by
  obtain ⟨node, hnode, hstop⟩ := he.mem id hid
  obtain ⟨node', hnode', hstop'⟩ := ho.mem id hid'
  rw [hnode, Option.some.injEq] at hnode'
  rw [← hstop, hnode', hstop']

theorem Houses.offered {s : Stop} (h : Houses N nodes (s, bucket)) (hx : x.stop N = s)
    (ho : Offered nodes bucket x next left) : Houses N next (s, left) := by
  cases ho with
  | needless => exact h
  | numbered hleft =>
    have hne : ∀ id ∈ bucket, id ≠ nodes.length := by
      intro id hid
      obtain ⟨node, hnode, _⟩ := h.mem id hid
      exact Nat.ne_of_lt (List.getElem?_eq_some_iff.1 hnode).1
    have hnodup : (bucket ++ [nodes.length]).Nodup :=
      List.nodup_append.2 ⟨h.nodup, List.pairwise_singleton _ _, fun a ha b hb =>
        List.mem_singleton.1 hb ▸ hne a ha⟩
    constructor
    case nodup =>
      obtain ⟨kept, hperm, hsublist⟩ := hleft
      exact hperm.nodup_iff.1 (hnodup.sublist hsublist)
    case mem =>
      intro id hid
      rcases List.mem_append.1 (hleft.subset hid) with hid | hid
      · exact (h.mono (List.prefix_append _ _)).mem id hid
      · rw [List.mem_singleton.1 hid]
        exact ⟨x, List.getElem?_concat_length, hx⟩

end

/-- What later states of a search keep of an earlier one: all its labels, and its settled stops with
their buckets. Labels that are made later belong to stops that come after those. -/
structure Later (N : Network) (A B : Arena α) : Prop where
  nodes : A.nodes <+: B.nodes
  settled : A.settled <:+ B.settled
  fresh : ∀ id node, A.nodes.length ≤ id → B.nodes[id]? = some node →
    ∀ entry ∈ A.settled, entry.1.before (node.stop N) = true

/-- The label with this number was extended while it stood in the bucket of a settled stop, from
which the leg leaves. -/
structure IsParent (S : Search α) (settled : List (Stop × List Nat)) (id : Nat)
    (extension : Nat × Leg) : Prop where
  lt : extension.1 < id
  outgoing : extension.2 ∈ S.expansion.outgoing extension.2.tail
  mem : ∃ entry ∈ settled, entry.1 = extension.2.tail ∧ extension.1 ∈ entry.2

section

variable {N : Network} {S : Search α} {A B C : Arena α}

theorem Later.of_nodes_eq (hnodes : B.nodes = A.nodes) (hsettled : A.settled <:+ B.settled) :
    Later N A B := by
  refine ⟨hnodes ▸ List.prefix_rfl, hsettled, fun id node hle hid => ?_⟩
  have hlt := (List.getElem?_eq_some_iff.1 hid).1
  rw [hnodes] at hlt
  omega

theorem Later.get? (h : Later N A B) {id : Nat} {node : Node α} (hid : A.nodes[id]? = some node) :
    B.nodes[id]? = some node := by
  obtain ⟨added, hnodes⟩ := h.nodes
  rw [← hnodes]
  exact getElem?_append_of_eq_some hid added

theorem Later.trans (hAB : Later N A B) (hBC : Later N B C) : Later N A C where
  nodes := hAB.nodes.trans hBC.nodes
  settled := hAB.settled.trans hBC.settled
  fresh id node hle hid entry hentry := by
    by_cases hlt : id < B.nodes.length
    · have hB : B.nodes[id]? = some B.nodes[id] := List.getElem?_eq_getElem hlt
      rw [hBC.get? hB, Option.some.injEq] at hid
      exact hAB.fresh id node hle (hid ▸ hB) entry hentry
    · exact hBC.fresh id node (Nat.le_of_not_lt hlt) hid entry (hAB.settled.subset hentry)

theorem IsParent.mono {settled later : List (Stop × List Nat)} {id : Nat} {extension : Nat × Leg}
    (h : IsParent S settled id extension) (hlater : settled <:+ later) :
    IsParent S later id extension := by
  obtain ⟨entry, he, hentry⟩ := h.mem
  exact { h with mem := ⟨entry, hlater.subset he, hentry⟩ }

end

end Arena

variable [Scalar α]

/-- A label of an arena belongs to some legs: its parents tell them, they make a walk to its stop
that the search may take, and they have left it its cost and its trail. -/
structure Stands (S : Search α) (nodes : List (Node α)) (id : Nat) (node : Node α)
    (legs : List Leg) : Prop where
  chain : Chain nodes id legs
  walk : S.Walk legs (node.stop S.expansion.network)
  cost : node.cost = (Route.mk legs).cost S.cost
  trail : node.trail = S.trailAfter legs

variable {S : Search α}

namespace Stands

variable {nodes next : List (Node α)} {node : Node α} {id : Nat} {legs : List Leg} {leg : Leg}

theorem mono (h : S.Stands nodes id node legs) (hnext : nodes <+: next) :
    S.Stands next id node legs := by
  obtain ⟨added, rfl⟩ := hnext
  exact { h with chain := h.chain.append added }

theorem start : S.Stands
    [Node.start S.expansion.network.dimension S.expansion.network.source] 0
    (Node.start S.expansion.network.dimension S.expansion.network.source) [] where
  chain := .start rfl rfl
  walk := .start
  cost := rfl
  trail := Trail.start_eq_ofVisits S.rule.memory_pos _

theorem extend (h : S.Stands nodes id node legs) (hid : id < nodes.length)
    (hl : leg ∈ S.expansion.outgoing (node.stop S.expansion.network)) (ha : S.allows leg = true)
    (hm : leg.head.vertex = S.expansion.network.source ∨
      S.rule.admits node.trail leg.head.vertex = true) :
    S.Stands (nodes ++ [node.extend S.rule.memory id leg (S.cost leg.edge)]) nodes.length
      (node.extend S.rule.memory id leg (S.cost leg.edge)) (legs ++ [leg]) where
  chain := .extend List.getElem?_concat_length rfl hid (h.chain.append _)
  walk := h.walk.step hl ⟨ha, h.trail ▸ hm⟩
  cost := by
    rw [Node.extend, h.cost, Route.cost, Route.cost, List.map_append, List.map_singleton,
      Scalar.sum_concat]
  trail := by
    rw [Node.extend, h.trail, trailAfter, Trail.visit_ofVisits S.rule.memory_pos, trailAfter,
      Network.visits_snoc]

end Stands

namespace Arena

/-- What holds of every state of a search: the settled stops come one after another, and the stops
that wait after them; the parents of labels, and the labels to extend, are labels of settled
stops. -/
structure Orderly (S : Search α) (A : Arena α) : Prop where
  rising : A.settled.Pairwise fun later earlier => earlier.1.before later.1 = true
  waiting : A.waiting.Ordered fun t =>
    t.Within S.expansion.network.dimension S.expansion.horizon ∧
      ∀ entry ∈ A.settled, entry.1.before t = true
  stands : ∀ id node, A.nodes[id]? = some node → ∃ legs, S.Stands A.nodes id node legs
  parents : ∀ id node extension, A.nodes[id]? = some node → node.parent = some extension →
    IsParent S A.settled id extension
  waits : ∀ entry ∈ A.waiting.entries, Houses S.expansion.network A.nodes entry
  settled : ∀ entry ∈ A.settled, Houses S.expansion.network A.nodes entry
  todo : ∀ extension ∈ A.todo, ∃ entry ∈ A.settled.head?, extension.1 ∈ entry.2 ∧
    extension.2 ∈ S.expansion.outgoing entry.1
  todo_nodup : A.todo.Nodup
  closed : ∀ id ∈ A.closed, ∃ entry ∈ A.settled,
    S.expansion.network.isTerminal entry.1 = true ∧ id ∈ entry.2

variable {A B : Arena α}

theorem orderly_start (h : S.expansion.network.WellFormed) :
    Orderly S (start S.expansion.network) := by
  have heq {id : Nat} {node : Node α} (hid : (start S.expansion.network).nodes[id]? = some node) :
      id = 0 ∧ node = Node.start S.expansion.network.dimension S.expansion.network.source := by
    obtain ⟨hlt, hnode⟩ := List.getElem?_eq_some_iff.1 hid
    obtain rfl := Nat.lt_one_iff.1 hlt
    exact ⟨rfl, hnode.symm⟩
  constructor
  case rising => exact .nil
  case waiting => exact .single ⟨h.start_within, fun _ he => nomatch he⟩ _
  case stands =>
    intro id node hid
    obtain ⟨rfl, rfl⟩ := heq hid
    exact ⟨[], .start⟩
  case parents =>
    intro id node extension hid hparent
    obtain ⟨rfl, rfl⟩ := heq hid
    cases hparent
  case waits =>
    intro entry he
    rw [List.mem_singleton.1 he]
    refine ⟨List.pairwise_singleton _ _, fun id hid => ?_⟩
    rw [List.mem_singleton.1 hid]
    exact ⟨_, rfl, rfl⟩
  case settled => exact fun _ he => nomatch he
  case todo => exact fun _ he => nomatch he
  case todo_nodup => exact .nil
  case closed => exact fun _ he => nomatch he

namespace Orderly

theorem houses_get? (hA : Orderly S A) (s : Stop) :
    Houses S.expansion.network A.nodes (s, (A.waiting.get? s).getD []) := by
  cases hbucket : A.waiting.get? s with
  | none => exact ⟨.nil, fun _ hid => nomatch hid⟩
  | some bucket => exact hA.waits _ (Frontier.mem_of_get? hbucket)

theorem may_wait (hA : Orderly S A) (h : S.expansion.network.WellFormed) {entry : Stop × List Nat}
    (he : entry ∈ A.settled.head?) {leg : Leg} (hl : leg ∈ S.expansion.outgoing entry.1) :
    leg.head.Within S.expansion.network.dimension S.expansion.horizon ∧
      ∀ e ∈ A.settled, e.1.before leg.head = true := by
  refine ⟨h.head_within hl, fun e hmem => ?_⟩
  obtain ⟨rest, hrest⟩ := List.head?_eq_some_iff.1 he
  have hrising := hA.rising
  rw [hrest] at hrising hmem
  rcases List.mem_cons.1 hmem with rfl | hmem
  · exact h.before_head hl
  · exact Stop.before_trans ((List.pairwise_cons.1 hrising).1 e hmem) (h.before_head hl)

/-- Whatever comes of the extension of a label at the stop that was settled last, all stays in
order. -/
theorem of_extends (hA : Orderly S A) (h : S.expansion.network.WellFormed) {id : Nat}
    {node : Node α} {leg : Leg} {entry : Stop × List Nat} (hnode : A.nodes[id]? = some node)
    (he : entry ∈ A.settled.head?) (hid : id ∈ entry.2) (hl : leg ∈ S.expansion.outgoing entry.1)
    (hB : Extends S A id node leg B) : Orderly S B ∧ Later S.expansion.network A B := by
  cases hB with
  | refused => exact ⟨{ hA with }, .of_nodes_eq rfl (List.suffix_refl _)⟩
  | @offered least nodes bucket exhaustive ha hm ho =>
    have hentry : entry ∈ A.settled := List.mem_of_head? he
    have hout : leg ∈ S.expansion.outgoing (node.stop S.expansion.network) := by
      obtain ⟨node', hnode', hstop⟩ := (hA.settled entry hentry).mem id hid
      rw [hnode, Option.some.injEq] at hnode'
      rwa [hnode', hstop]
    have hwait := hA.may_wait h he hl
    constructor
    · constructor
      case rising => exact hA.rising
      case waiting => exact hA.waiting.set hwait bucket
      case stands =>
        intro i x hi
        rcases ho.get?_cases hi with hi | ⟨rfl, rfl, hnodes⟩
        · obtain ⟨legs, hlegs⟩ := hA.stands i x hi
          exact ⟨legs, hlegs.mono ho.isPrefix⟩
        · obtain ⟨legs, hlegs⟩ := hA.stands id node hnode
          rw [hnodes]
          exact ⟨legs ++ [leg], hlegs.extend (List.getElem?_eq_some_iff.1 hnode).1 hout ha hm⟩
      case parents =>
        intro i x extension hi hparent
        rcases ho.get?_cases hi with hi | ⟨rfl, rfl, _⟩
        · exact hA.parents i x extension hi hparent
        · obtain rfl := Option.some.inj hparent
          have htail : leg.tail = entry.1 := h.tail_eq hl
          exact ⟨(List.getElem?_eq_some_iff.1 hnode).1, htail ▸ hl, entry, hentry, htail.symm, hid⟩
      case waits =>
        intro e hmem
        rcases Frontier.mem_set hmem with rfl | hmem
        · exact (hA.houses_get? leg.head).offered rfl ho
        · exact (hA.waits e hmem).mono ho.isPrefix
      case settled => exact fun e hmem => (hA.settled e hmem).mono ho.isPrefix
      case todo => exact hA.todo
      case todo_nodup => exact hA.todo_nodup
      case closed => exact hA.closed
    · refine ⟨ho.isPrefix, List.suffix_refl _, fun i x hle hi e hmem => ?_⟩
      rcases ho.get?_cases hi with hi | ⟨_, rfl, _⟩
      · exact absurd (List.getElem?_eq_some_iff.1 hi).1 (Nat.not_lt.2 hle)
      · exact hwait.2 e hmem

theorem settle (hA : Orderly S A) {s : Stop} {bucket : List Nat} {rest : List (Stop × List Nat)}
    (htodo : A.todo = []) (hentries : A.waiting.entries = (s, bucket) :: rest) :
    Orderly S { A with waiting := ⟨rest⟩, settled := (s, bucket) :: A.settled } := by
  have hwaiting : A.waiting = ⟨(s, bucket) :: rest⟩ := congrArg Frontier.mk hentries
  have hordered := hA.waiting
  have hwaits := hA.waits
  rw [hwaiting] at hordered hwaits
  obtain ⟨_, hbefore⟩ := hordered.all _ List.mem_cons_self
  constructor
  case rising => exact List.pairwise_cons.2 ⟨hbefore, hA.rising⟩
  case waiting =>
    exact hordered.rest.mono fun t ht => ⟨ht.1.1, List.forall_mem_cons.2 ⟨ht.2, ht.1.2⟩⟩
  case stands => exact hA.stands
  case parents =>
    exact fun id node extension hid hparent =>
      (hA.parents id node extension hid hparent).mono (List.suffix_cons _ _)
  case waits => exact fun e he => hwaits e (List.mem_cons_of_mem _ he)
  case settled => exact List.forall_mem_cons.2 ⟨hwaits _ List.mem_cons_self, hA.settled⟩
  case todo =>
    rw [htodo]
    exact fun _ he => nomatch he
  case todo_nodup =>
    rw [htodo]
    exact .nil
  case closed =>
    intro id hid
    obtain ⟨entry, he, hentry⟩ := hA.closed id hid
    exact ⟨entry, List.mem_cons_of_mem _ he, hentry⟩

theorem next (hA : Orderly S A) {id : Nat} {leg : Leg} {todo : List (Nat × Leg)}
    (htodo : A.todo = (id, leg) :: todo) :
    (∃ entry ∈ A.settled.head?, id ∈ entry.2 ∧ leg ∈ S.expansion.outgoing entry.1) ∧
      Orderly S { A with todo } := by
  have hlast := hA.todo
  have hnodup := hA.todo_nodup
  rw [htodo] at hlast hnodup
  obtain ⟨hfirst, hrest⟩ := List.forall_mem_cons.1 hlast
  exact ⟨hfirst, { hA with todo := hrest, todo_nodup := (List.nodup_cons.1 hnodup).2 }⟩

/-- What a step does keeps all in order. -/
theorem of_step (hA : Orderly S A) (h : S.expansion.network.WellFormed) (hB : Step S A B) :
    Orderly S B ∧ Later S.expansion.network A B := by
  cases hB with
  | @tried id leg todo node _ htodo hnode hB =>
    obtain ⟨⟨entry, he, hid, hl⟩, hA'⟩ := hA.next htodo
    obtain ⟨hB, hlater⟩ := hA'.of_extends h hnode he hid hl hB
    exact ⟨hB, hlater.nodes, hlater.settled, hlater.fresh⟩
  | @ended s bucket rest htodo hentries ht =>
    have hB := hA.settle htodo hentries
    refine ⟨{ hB with closed := fun id hid => ?_ }, .of_nodes_eq rfl (List.suffix_cons _ _)⟩
    rcases List.mem_append.1 hid with hid | hid
    · exact hB.closed id hid
    · exact ⟨(s, bucket), List.mem_cons_self, ht, hid⟩
  | @opened s bucket rest htodo hentries _ =>
    have hB := hA.settle htodo hentries
    have hbucket := (hB.settled (s, bucket) List.mem_cons_self).nodup
    have hproduct : (bucket.product (S.expansion.outgoing s)).Nodup :=
      hbucket.product (Expansion.outgoing_nodup h s)
    refine ⟨{ hB with todo := fun extension he => ?_, todo_nodup := hproduct },
      .of_nodes_eq rfl (List.suffix_cons _ _)⟩
    obtain ⟨hid, hl⟩ := List.mem_product.1 he
    exact ⟨(s, bucket), rfl, hid, hl⟩

theorem of_reaches (hA : Orderly S A) (h : S.expansion.network.WellFormed) (hB : Reaches S A B) :
    Orderly S B ∧ Later S.expansion.network A B := by
  induction hB with
  | refl => exact ⟨hA, .of_nodes_eq rfl (List.suffix_refl _)⟩
  | tail _ hstep ih =>
    obtain ⟨horderly, hlater⟩ := ih.1.of_step h (step_of_step? hstep)
    exact ⟨horderly, ih.2.trans hlater⟩

theorem nodup_settled (hA : Orderly S A) : (A.settled.flatMap (·.2)).Nodup := by
  refine List.nodup_flatMap.2 ⟨fun entry he => (hA.settled entry he).nodup, ?_⟩
  refine hA.rising.imp_of_mem fun {later earlier} hl he hbefore => ?_
  intro id hid hid'
  rw [(hA.settled later hl).stop_eq (hA.settled earlier he) hid hid',
    Stop.not_before_self] at hbefore
  cases hbefore

theorem not_mem_waiting (hA : Orderly S A) {entry done : Stop × List Nat} {id : Nat}
    (hdone : done ∈ A.settled) (hid : id ∈ done.2) (he : entry ∈ A.waiting.entries) :
    id ∉ entry.2 := by
  intro hid'
  have hbefore := (hA.waiting.all entry he).2 done hdone
  rw [(hA.settled done hdone).stop_eq (hA.waits entry he) hid hid',
    Stop.not_before_self] at hbefore
  cases hbefore

theorem step?_eq_none_iff (hA : Orderly S A) :
    A.step? S = none ↔ A.todo = [] ∧ A.waiting.entries = [] := by
  rw [step?]
  cases htodo : A.todo with
  | cons next todo =>
    obtain ⟨entry, he, hid, _⟩ := hA.todo next (htodo ▸ List.mem_cons_self)
    obtain ⟨node, hnode, _⟩ := (hA.settled entry (List.mem_of_head? he)).mem next.1 hid
    simp [hnode]
  | nil =>
    cases hentries : A.waiting.entries with
    | nil => simp
    | cons entry rest =>
      cases ht : S.expansion.network.isTerminal entry.1 <;> simp [ht]

theorem exists_parent (hA : Orderly S A) (h : S.expansion.network.WellFormed) {id : Nat}
    {node : Node α} {extension : Nat × Leg} (hid : A.nodes[id]? = some node)
    (hparent : node.parent = some extension) :
    extension.1 < id ∧ ∃ parent, A.nodes[extension.1]? = some parent ∧
      extension.2 ∈ S.expansion.outgoing (parent.stop S.expansion.network) ∧
      (parent.stop S.expansion.network).time < (node.stop S.expansion.network).time := by
  obtain ⟨hlt, hl, entry, he, htail, hmem⟩ := hA.parents id node extension hid hparent
  obtain ⟨parent, hget, hstop⟩ := (hA.settled entry he).mem extension.1 hmem
  have hnode : node.stop S.expansion.network = extension.2.head := by
    simp only [Node.stop, hparent]
  rw [← htail, ← hstop] at hl
  refine ⟨hlt, parent, hget, hl, ?_⟩
  rw [hnode]
  exact h.time_lt hl

end Orderly

end Arena

end Search

end TourPricing
