import Mathlib.Logic.Relation
import TourPricing.Proofs.Search.Bucket

namespace TourPricing

theorem getElem?_append_of_eq_some {β : Type} {l : List β} {i : Nat} {b : β} (h : l[i]? = some b)
    (l' : List β) : (l ++ l')[i]? = some b := by
  rw [List.getElem?_append_left (List.getElem?_eq_some_iff.1 h).1, h]

namespace Frontier

variable {β γ : Type}

def map (f : β → γ) (F : Frontier β) : Frontier γ :=
  ⟨F.entries.map fun entry => (entry.1, f entry.2)⟩

theorem get?_map (f : β → γ) (F : Frontier β) (s : Stop) : (F.map f).get? s = (F.get? s).map f := by
  obtain ⟨entries⟩ := F
  induction entries with
  | nil => rfl
  | cons entry rest ih =>
    obtain ⟨t, b⟩ := entry
    have hcons : (Frontier.mk ((t, b) :: rest)).map f =
      ⟨(t, f b) :: ((Frontier.mk rest).map f).entries⟩ := rfl
    rw [hcons, get?_cons, get?_cons]
    split
    · rfl
    · exact ih

theorem map_set (f : β → γ) (F : Frontier β) (s : Stop) (b : β) :
    (F.set s b).map f = (F.map f).set s (f b) := by
  obtain ⟨entries⟩ := F
  simp only [set, map, mk.injEq]
  induction entries with
  | nil => rfl
  | cons entry rest ih =>
    simp only [insertEntry, List.map_cons]
    split
    · rfl
    · split
      · rfl
      · rw [List.map_cons, ih]

theorem map_congr {f g : β → γ} {F : Frontier β} (h : ∀ entry ∈ F.entries, f entry.2 = g entry.2) :
    F.map f = F.map g := by
  rw [map, map, List.map_congr_left fun entry he => by rw [h entry he]]

end Frontier

namespace Bucket

theorem swapRemove_map {β γ : Type} (f : β → γ) (l : List β) (position : Nat) :
    swapRemove (l.map f) position = (swapRemove l position).map f := by
  rcases List.eq_nil_or_concat l with rfl | ⟨init, last, rfl⟩
  · rfl
  · rw [List.concat_eq_append, List.map_append, List.map_singleton, swapRemove_concat,
      swapRemove_concat, List.map_dropLast, List.map_set, List.map_append, List.map_singleton]

theorem subperm_swapRemove {β : Type} (l : List β) (position : Nat) :
    (swapRemove l position).Subperm l := by
  rcases List.eq_nil_or_concat l with rfl | ⟨init, last, rfl⟩
  · exact List.Subperm.refl _
  · rw [List.concat_eq_append]
    by_cases h : position < (init ++ [last]).length
    · exact (List.sublist_cons_self _ _).subperm.trans (perm_swapRemove h).symm.subperm
    · rw [swapRemove_concat, List.set_eq_of_length_le (Nat.le_of_not_lt h)]
      exact (List.dropLast_sublist _).subperm

variable {α : Type} [Scalar α]

theorem costliestFrom_congr {best best' : Label α} {position next : Nat} {l l' : List (Label α)}
    (hbest : best.cost = best'.cost) (h : l.map (·.cost) = l'.map (·.cost)) :
    costliestFrom best position next l = costliestFrom best' position next l' := by
  induction l generalizing best best' position next l' with
  | nil =>
    rw [List.map_nil, eq_comm, List.map_eq_nil_iff] at h
    rw [h, costliestFrom, costliestFrom]
  | cons label rest ih =>
    cases l' with
    | nil => cases h
    | cons label' rest' =>
      obtain ⟨hlabel, hrest⟩ := List.cons.inj h
      have hlabel : label.cost = label'.cost := hlabel
      have hrank : best.rankLE label = best'.rankLE label' := by
        rw [Label.rankLE, Label.rankLE, hbest, hlabel]
      rw [costliestFrom, costliestFrom, hrank, ih hlabel hrest, ih hbest hrest]

theorem costliest_congr {l l' : List (Label α)} (h : l.map (·.cost) = l'.map (·.cost)) :
    costliest l = costliest l' := by
  cases l with
  | nil =>
    rw [List.map_nil, eq_comm, List.map_eq_nil_iff] at h
    rw [h]
  | cons best rest =>
    cases l' with
    | nil => cases h
    | cons best' rest' =>
      obtain ⟨hbest, hrest⟩ := List.cons.inj h
      exact costliestFrom_congr hbest hrest

end Bucket

namespace Search

/-- A label of an arena. -/
structure Node (α : Type) where
  cost : α
  /-- The number of the label that it extends, and the leg by which it does. -/
  parent : Option (Nat × Leg)
  trail : Trail

namespace Node

variable {α : Type}

def stop (N : Network) (node : Node α) : Stop :=
  match node.parent with
  | none => N.start
  | some extension => extension.2.head

def label (node : Node α) : Label α :=
  ⟨node.cost, [], node.trail⟩

variable [Scalar α]

def start (n source : Nat) : Node α :=
  ⟨Scalar.ofNat 0, none, Trail.start n source⟩

def extend (node : Node α) (memory id : Nat) (leg : Leg) (cost : α) : Node α :=
  ⟨node.cost + cost, some (id, leg), node.trail.visit memory leg.head.vertex⟩

end Node

/-- The legs by which a label came about, found from parent to parent, before some legs that follow.
There is no answer if a number belongs to no label, or if a parent does not come before its label,
so that the parents might never end. -/
def backtrackFrom? {α : Type} (nodes : List (Node α)) (id : Nat) (after : List Leg) :
    Option (List Leg) :=
  match nodes[id]? with
  | none => none
  | some node =>
    match node.parent with
    | none => some after
    | some extension =>
      if extension.1 < id then backtrackFrom? nodes extension.1 (extension.2 :: after) else none
termination_by id

def backtrack? {α : Type} (nodes : List (Node α)) (id : Nat) : Option (List Leg) :=
  backtrackFrom? nodes id []

/-- Where a search stands between two steps. -/
structure Arena (α : Type) where
  /-- All labels that were made, by their numbers. -/
  nodes : List (Node α)
  /-- The numbers of the labels that wait. -/
  waiting : Frontier (List Nat)
  /-- The extensions still to try of labels at the stop that was settled last. -/
  todo : List (Nat × Leg)
  /-- The settled stops with the numbers of their labels, the last one first. -/
  settled : List (Stop × List Nat)
  closed : List Nat
  leastEdgeCost : Option α
  exhaustive : Bool

/-- What comes of a label that is offered to a bucket. -/
structure Offer (α : Type) where
  nodes : List (Node α)
  bucket : List Nat
  /-- Whether the limit cost a label. -/
  cut : Bool

namespace Arena

variable {α : Type} [Scalar α]

def start (N : Network) : Arena α where
  nodes := [Node.start N.dimension N.source]
  waiting := .single N.start [0]
  todo := []
  settled := []
  closed := []
  leastEdgeCost := none
  exhaustive := true

/-- Offers a label to a bucket. It only gets a number if it is not needless. -/
def insert (rule : VisitRule) (limit : Nat) (nodes : List (Node α)) (bucket : List Nat)
    (x : Node α) : Offer α :=
  if bucket.any fun id => (nodes[id]?).any fun old => old.label.covers rule x.label then
    ⟨nodes, bucket, false⟩
  else
    let kept := bucket.filter fun id => !(nodes[id]?).any fun old => x.label.covers rule old.label
    let nodes := nodes ++ [x]
    let bucket := kept ++ [nodes.length - 1]
    if max limit 1 < bucket.length then
      let labels := bucket.filterMap fun id => (nodes[id]?).map Node.label
      ⟨nodes, Bucket.swapRemove bucket (Bucket.costliest labels), true⟩
    else ⟨nodes, bucket, false⟩

variable (S : Search α)

def offer (nodes : List (Node α)) (bucket : List Nat) (s : Stop) (x : Node α) : Offer α :=
  if s.vertex = S.expansion.network.source then ⟨nodes ++ [x], bucket ++ [nodes.length], false⟩
  else insert S.rule S.limits.labelLimit nodes bucket x

def extend (A : Arena α) (id : Nat) (node : Node α) (leg : Leg) : Arena α :=
  if !S.allows leg then A
  else
    let cost := S.cost leg.edge
    let A := { A with leastEdgeCost := Scalar.least A.leastEdgeCost cost }
    let next := leg.head.vertex
    if next != S.expansion.network.source && !S.rule.admits node.trail next then A
    else
      let offered := offer S A.nodes ((A.waiting.get? leg.head).getD []) leg.head
        (node.extend S.rule.memory id leg cost)
      { A with
        nodes := offered.nodes
        waiting := A.waiting.set leg.head offered.bucket
        exhaustive := A.exhaustive && !offered.cut }

/-- The next step: the next extension is tried, or the stop that comes first is settled. There is
none if nothing waits, and none either if a number belongs to no label. -/
def step? (A : Arena α) : Option (Arena α) :=
  match A.todo with
  | next :: todo => (A.nodes[next.1]?).map fun node => extend S { A with todo } next.1 node next.2
  | [] =>
    match A.waiting.entries with
    | [] => none
    | entry :: rest =>
      let A := { A with waiting := ⟨rest⟩, settled := entry :: A.settled }
      if S.expansion.network.isTerminal entry.1 then some { A with closed := A.closed ++ entry.2 }
      else some { A with todo := entry.2.product (S.expansion.outgoing entry.1) }

def Reaches : Arena α → Arena α → Prop :=
  Relation.ReflTransGen fun A B => A.step? S = some B

/-- The closed walks below the threshold, cheapest first, as many as are wanted, each of them found
from parent to parent. There is no answer if one of them cannot be found. -/
def result? (A : Arena α) : Option (SearchResult α) := do
  let closed ← A.closed.mapM fun id => (A.nodes[id]?).map fun node => (id, node)
  let ranked := closed.mergeSort fun a b => Scalar.rankLE a.2.cost b.2.cost
  let paths ← ((ranked.filter (·.2.cost < S.limits.threshold)).take S.limits.maxPaths).mapM
    fun found => (backtrack? A.nodes found.1).map fun legs => (found.2.cost, ⟨legs⟩)
  return ⟨paths, A.leastEdgeCost, A.exhaustive⟩

end Arena

/-- The legs of a label, as its parents tell them. -/
inductive Chain {α : Type} (nodes : List (Node α)) : Nat → List Leg → Prop
  | start {id : Nat} {node : Node α} : nodes[id]? = some node → node.parent = none →
    Chain nodes id []
  | extend {id p : Nat} {node : Node α} {legs : List Leg} {leg : Leg} : nodes[id]? = some node →
    node.parent = some (p, leg) → p < id → Chain nodes p legs → Chain nodes id (legs ++ [leg])

namespace Chain

variable {α : Type} {nodes : List (Node α)} {id : Nat} {legs : List Leg}

theorem append (h : Chain nodes id legs) (added : List (Node α)) :
    Chain (nodes ++ added) id legs := by
  induction h with
  | start hid hparent => exact .start (getElem?_append_of_eq_some hid added) hparent
  | extend hid hparent hlt _ ih =>
    exact .extend (getElem?_append_of_eq_some hid added) hparent hlt ih

theorem backtrackFrom?_eq (h : Chain nodes id legs) (after : List Leg) :
    backtrackFrom? nodes id after = some (legs ++ after) := by
  induction h generalizing after with
  | start hid hparent =>
    rw [backtrackFrom?, hid]
    simp only [hparent, List.nil_append]
  | extend hid hparent hlt _ ih =>
    rw [backtrackFrom?, hid]
    simp only [hparent, hlt, if_true, ih, List.append_assoc, List.singleton_append]

theorem backtrack?_eq (h : Chain nodes id legs) : backtrack? nodes id = some legs := by
  rw [backtrack?, h.backtrackFrom?_eq, List.append_nil]

end Chain

namespace Arena

variable {α : Type} [Scalar α]

/-- All that can come of an offer: the label is needless and nothing changes, or it gets the next
number, which goes into the bucket, and some numbers may leave the bucket. -/
inductive Offered (nodes : List (Node α)) (bucket : List Nat) (x : Node α) :
    List (Node α) → List Nat → Prop
  | needless : Offered nodes bucket x nodes bucket
  | numbered {left : List Nat} : left.Subperm (bucket ++ [nodes.length]) →
    Offered nodes bucket x (nodes ++ [x]) left

theorem offered_insert (rule : VisitRule) (limit : Nat) (nodes : List (Node α)) (bucket : List Nat)
    (x : Node α) : Offered nodes bucket x (insert rule limit nodes bucket x).nodes
      (insert rule limit nodes bucket x).bucket := by
  have hkept (p : Nat → Bool) : (bucket.filter p ++ [(nodes ++ [x]).length - 1]).Subperm
      (bucket ++ [nodes.length]) := by
    rw [List.length_append, List.length_singleton, Nat.add_sub_cancel]
    exact ((List.filter_sublist).append_right _).subperm
  simp only [insert]
  split
  · exact .needless
  · split
    · exact .numbered ((Bucket.subperm_swapRemove _ _).trans (hkept _))
    · exact .numbered (hkept _)

variable (S : Search α)

theorem offered_offer (nodes : List (Node α)) (bucket : List Nat) (s : Stop) (x : Node α) :
    Offered nodes bucket x (offer S nodes bucket s x).nodes (offer S nodes bucket s x).bucket := by
  rw [offer]
  split
  · exact .numbered (List.Subperm.refl _)
  · exact offered_insert _ _ _ _ _

theorem extend_of_admits (A : Arena α) (id : Nat) {node : Node α} {leg : Leg}
    (ha : S.allows leg = true) (hm : leg.head.vertex = S.expansion.network.source ∨
      S.rule.admits node.trail leg.head.vertex = true) :
    A.extend S id node leg =
      let offered := offer S A.nodes ((A.waiting.get? leg.head).getD []) leg.head
        (node.extend S.rule.memory id leg (S.cost leg.edge))
      { A with
        nodes := offered.nodes
        waiting := A.waiting.set leg.head offered.bucket
        leastEdgeCost := Scalar.least A.leastEdgeCost (S.cost leg.edge)
        exhaustive := A.exhaustive && !offered.cut } := by
  rcases hm with hv | hr
  · simp [extend, ha, hv]
  · simp [extend, ha, hr]

/-- All that can come of a label that is to be extended by a leg: nothing, but that an edge was
looked at, or an offer to the bucket at the end of the leg. -/
inductive Extends (A : Arena α) (id : Nat) (node : Node α) (leg : Leg) : Arena α → Prop
  | refused {least : Option α} : Extends A id node leg { A with leastEdgeCost := least }
  | offered {least : Option α} {nodes : List (Node α)} {bucket : List Nat} {exhaustive : Bool} :
    S.allows leg = true →
    (leg.head.vertex = S.expansion.network.source ∨
      S.rule.admits node.trail leg.head.vertex = true) →
    Offered A.nodes ((A.waiting.get? leg.head).getD [])
      (node.extend S.rule.memory id leg (S.cost leg.edge)) nodes bucket →
    Extends A id node leg
      { A with nodes, waiting := A.waiting.set leg.head bucket, leastEdgeCost := least, exhaustive }

theorem Extends.todo_eq {S : Search α} {A B : Arena α} {id : Nat} {node : Node α} {leg : Leg}
    (h : Extends S A id node leg B) : B.todo = A.todo := by
  cases h <;> rfl

theorem extends_extend (A : Arena α) (id : Nat) (node : Node α) (leg : Leg) :
    Extends S A id node leg (A.extend S id node leg) := by
  simp only [extend]
  split
  · exact .refused
  · rename_i ha
    split
    · exact .refused
    · rename_i hm
      refine .offered ?_ ?_ (offered_offer S _ _ _ _)
      · simpa using ha
      · by_cases hv : leg.head.vertex = S.expansion.network.source
        · exact .inl hv
        · exact .inr (by simpa [hv] using hm)

/-- All that a step can do. -/
inductive Step (A : Arena α) : Arena α → Prop
  | tried {id : Nat} {leg : Leg} {todo : List (Nat × Leg)} {node : Node α} {B : Arena α} :
    A.todo = (id, leg) :: todo → A.nodes[id]? = some node →
    Extends S { A with todo } id node leg B → Step A B
  | ended {s : Stop} {bucket : List Nat} {rest : List (Stop × List Nat)} :
    A.todo = [] → A.waiting.entries = (s, bucket) :: rest →
    S.expansion.network.isTerminal s = true →
    Step A { A with
      waiting := ⟨rest⟩
      settled := (s, bucket) :: A.settled
      closed := A.closed ++ bucket }
  | opened {s : Stop} {bucket : List Nat} {rest : List (Stop × List Nat)} :
    A.todo = [] → A.waiting.entries = (s, bucket) :: rest →
    S.expansion.network.isTerminal s = false →
    Step A { A with
      waiting := ⟨rest⟩
      settled := (s, bucket) :: A.settled
      todo := bucket.product (S.expansion.outgoing s) }

theorem step_of_step? {S : Search α} {A B : Arena α} (h : A.step? S = some B) : Step S A B := by
  rw [step?] at h
  split at h
  · rename_i next todo htodo
    obtain ⟨node, hnode, rfl⟩ := Option.map_eq_some_iff.1 h
    exact .tried htodo hnode (extends_extend S _ _ _ _)
  · rename_i htodo
    split at h
    · cases h
    · rename_i entry rest hentries
      split at h
      · rename_i ht
        obtain rfl := Option.some.inj h
        exact .ended htodo hentries ht
      · rename_i hn
        obtain rfl := Option.some.inj h
        exact .opened htodo hentries (Bool.eq_false_iff.2 hn)

end Arena

end Search

end TourPricing
