import TourPricing.Proofs.Manager.Frame
import TourPricing.Proofs.Manager.Offers
import TourPricing.Proofs.Master.Submissions

namespace TourPricing

open Std.Do

set_option mvcgen.warning false

namespace Books

variable {α : Type} [Scalar α] {N : Network} {permitted : Leg → Prop} {faulty : Prop}

theorem sameRecord_of_enterLeg {l l' : Ledger α} {leg : Leg} {name : String} {domain : Domain}
    {coefficients : List (RowId × α)}
    (h : enterLeg l leg name domain coefficients = .ok l') : Ledger.SameRecord l l' := by
  have hnew : Ledger.SameRecord l (l.addVariable name (Scalar.ofNat leg.travelTime) domain).2 :=
    ⟨rfl, rfl⟩
  exact hnew.trans (.of_enter h)

structure Submits (N : Network) (b b' : Books α) (r : Route) (used : List VariableId)
    (accepted : Bool) : Prop where
  tour : r.isTour? N = some true
  legs : List.Forall₂ (fun leg v => (leg, v) ∈ b.columns) r.legs used
  ledger : b.ledger.withSubmission (used.map fun v => (v, Scalar.ofNat 1)) =
    .ok (accepted, b'.ledger)
  incumbent : b'.incumbent = if accepted = true then improved b.incumbent r else b.incumbent

theorem Step.record_cases {b b' : Books α} (h : Step N permitted faulty b b') :
    (Ledger.SameRecord b.ledger b'.ledger ∧ b'.incumbent = b.incumbent) ∨
      ∃ r used accepted, Submits N b b' r used accepted := by
  cases h with
  | submit _ htour hused hl hincumbent => exact .inr ⟨_, _, _, htour, hused, hl, hincumbent⟩
  | column _ _ _ _ _ _ hl | orphan _ _ hl => exact .inl ⟨sameRecord_of_enterLeg hl, rfl⟩
  | withdraw _ hl hl' =>
    exact .inl ⟨(sameRecord_of_enterLeg hl).trans (.of_releaseVariable hl'), rfl⟩
  | releaseColumn _ _ hl => exact .inl ⟨.of_releaseVariable hl, rfl⟩
  | releaseRow _ _ _ hl => exact .inl ⟨.of_releaseRow hl, rfl⟩
  | reoptimize | init | row | loseColumns | loseRows | exit | reorder =>
    exact .inl ⟨⟨rfl, rfl⟩, rfl⟩

theorem Step.submissions_prefix {b b' : Books α} (h : Step N permitted faulty b b') :
    b.ledger.submissions.toList <+: b'.ledger.submissions.toList := by
  rcases h.record_cases with ⟨hsame, _⟩ | ⟨r, used, accepted, hsubmits⟩
  · rw [hsame.submissions]
  · obtain ⟨objective, _, _, hl⟩ := Ledger.eq_of_submit hsubmits.ledger
    rw [hl, Array.toList_push]
    exact List.prefix_append _ _

theorem Steps.submissions_prefix {b b' : Books α} (h : Steps N permitted faulty b b') :
    b.ledger.submissions.toList <+: b'.ledger.submissions.toList := by
  induction h with
  | refl => exact List.prefix_rfl
  | tail _ hstep ih => exact ih.trans hstep.submissions_prefix

def values (b : Books Rat) : List Rat :=
  b.ledger.submissions.toList.map (·.objective)

theorem length_values (b : Books Rat) : b.values.length = b.ledger.submissions.size := by
  rw [values, List.length_map, Array.length_toList]

/-- The incumbent and the best accepted value are the least value on record. -/
structure Tallied (b : Books Rat) : Prop where
  best : b.ledger.bestAccepted = b.values.min?
  incumbent : b.incumbent = b.values.min?

/-- The master counts the costs of the variables, the manager the times of the legs. -/
theorem Submits.tallied {b b' : Books Rat} {r : Route} {used : List VariableId} {accepted : Bool}
    (h : Submits N b b' r used accepted) (htimely : b.Sound N N.IsTimely) (hb : b.Tallied) :
    b'.Tallied := by
  have hs : b.Sound N N.IsDeparture := htimely.mono fun _ hleg => hleg.1
  have hbest := improved_of_travelTime? b.incumbent
    (Route.travelTime?_of_isTour? h.tour (htimely.permitted_of_forall₂ h.legs))
  have hone : (Scalar.ofNat 1 : Rat) = 1 := Nat.cast_one
  have hledger := h.ledger
  rw [hone] at hledger
  obtain ⟨objective, hvalue, haccepted, hl⟩ := Ledger.eq_of_submit hledger
  rw [hs.value_eq h.legs, Except.ok.injEq] at hvalue
  have hvalues : b'.values = b.values ++ [(r.travelTime : Rat)] := by
    rw [values, hl, Array.toList_push, List.map_append, ← hvalue]
    rfl
  have hne : used ≠ [] := by
    rintro rfl
    have hlegs := List.forall₂_nil_right_iff.1 h.legs
    have hstart := (Route.isTour?_eq_some_true h.tour).1.2.2.1
    rw [hlegs] at hstart
    cases hstart
  have hnonempty : (used.map fun v => (v, (1 : Rat))).isEmpty = false := by
    rw [List.isEmpty_eq_false_iff, ne_eq, List.map_eq_nil_iff]
    exact hne
  rw [hnonempty, Bool.not_false, Bool.true_and, ← hvalue, hb.best] at haccepted
  constructor
  case best =>
    rw [hvalues, min?_concat, ← haccepted, ← hb.best, hl, ← hvalue]
  case incumbent =>
    have htime : (Scalar.ofNat r.travelTime : Rat) = r.travelTime := rfl
    rw [hb.incumbent, htime] at hbest
    rw [hvalues, min?_concat, h.incumbent, hb.incumbent, haccepted, hbest]
    split <;> rfl

theorem Steps.tallied {b b' : Books Rat} (h : Steps N N.IsTimely faulty b b')
    (hs : b.Sound N N.IsTimely) (hb : b.Tallied) : b'.Tallied := by
  induction h with
  | refl => exact hb
  | tail hsteps hstep ih =>
    rcases hstep.record_cases with ⟨hsame, hincumbent⟩ | ⟨r, used, accepted, hsubmits⟩
    · have hvalues := congrArg (fun l : Array (Submission Rat) => l.toList.map (·.objective))
        hsame.submissions
      exact ⟨hsame.bestAccepted.trans (ih.best.trans (congrArg List.min? hvalues.symm)),
        hincumbent.trans (ih.incumbent.trans (congrArg List.min? hvalues.symm))⟩
    · exact hsubmits.tallied (Steps.sound hsteps hs) ih

end Books

namespace Recorder

variable {M α β : Type} [Scalar α] [HasLedger M α]

/-- Every solution on record was offered, and its value is the one that it had then. -/
def Documented (r : Recorder M α) : Prop :=
  ∀ s ∈ (HasLedger.ledger r.master).submissions, ∃ o ∈ r.offers,
    o.assignment = s.assignment ∧ o.ledger.value o.assignment = .ok s.objective

def KeepsDocumented (r r' : Recorder M α) : Prop :=
  r.Documented → r'.Documented

omit [Scalar α] in
theorem sameRecord_of_comes {m m' : M} {l : Ledger α} {offered : List (Offer α)}
    (h : Comes m m' l offered) (hl : (HasLedger.ledger m).SameRecord l) :
    (HasLedger.ledger m).SameRecord (HasLedger.ledger m') :=
  h.ledger ▸ hl

omit [Scalar α] in
theorem sameRecord_of_idles {m m' : M} (h : Idles m m') :
    (HasLedger.ledger m).SameRecord (HasLedger.ledger m') :=
  sameRecord_of_comes h (.refl _)

theorem preserves_pass {request : Ask M β} {offered : M → List (Offer α)} {Q : M → β → M → Prop}
    {R : M → M → Prop}
    (h : ∀ m, ⦃fun s => ⌜s = m⌝⦄ request ⦃post⟨fun b s => ⌜Q m b s⌝, fun _ s => ⌜R m s⌝⟩⦄)
    (hQ : ∀ m b s, Q m b s → (HasLedger.ledger m).SameRecord (HasLedger.ledger s))
    (hR : ∀ m s, R m s → (HasLedger.ledger m).SameRecord (HasLedger.ledger s)) :
    Preserves KeepsDocumented (pass request offered) := by
  intro r hr s hs
  have hspec := triple_iff.1 (h r.master) _ rfl
  have hsame : (HasLedger.ledger r.master).SameRecord
      (HasLedger.ledger (request.run r.master).2) := by
    rcases hrun : request.run r.master with ⟨_ | _, t⟩ <;> rw [hrun] at hspec
    · exact hR _ _ hspec
    · exact hQ _ _ _ hspec
  change s ∈ (HasLedger.ledger (request.run r.master).2).submissions at hs
  rw [hsame.submissions] at hs
  obtain ⟨o, ho, hoffer⟩ := hr s hs
  exact ⟨o, List.mem_append_left _ ho, hoffer⟩

variable [Master M α] [LawfulMaster M]

theorem preserves_submit (assignment : List (VariableId × α)) :
    Preserves KeepsDocumented (Master.submit assignment : Ask (Recorder M α) Bool) := by
  intro r hr s hs
  have hspec := triple_iff.1 (LawfulMaster.submit assignment r.master) _ rfl
  change s ∈ (HasLedger.ledger ((Master.submit assignment : Ask M Bool).run r.master).2).submissions
    at hs
  have hold (h : s ∈ (HasLedger.ledger r.master).submissions) :
      ∃ o ∈ r.offers ++ [⟨HasLedger.ledger r.master, assignment⟩],
        o.assignment = s.assignment ∧ o.ledger.value o.assignment = .ok s.objective := by
    obtain ⟨o, ho, hoffer⟩ := hr s h
    exact ⟨o, List.mem_append_left _ ho, hoffer⟩
  rcases hrun : (Master.submit assignment : Ask M Bool).run r.master with ⟨e | accepted, t⟩ <;>
    rw [hrun] at hspec hs
  · rw [hspec.ledger] at hs
    exact hold hs
  · obtain ⟨l, hl, hc⟩ := hspec
    obtain ⟨objective, hvalue, _, rfl⟩ := Ledger.eq_of_submit hl
    rw [hc.ledger] at hs
    rcases Array.mem_push.1 hs with hs | rfl
    · exact hold hs
    · exact ⟨_, List.mem_append_right _ (List.mem_singleton_self _), rfl, hvalue⟩

instance : Respected (KeepsDocumented (M := M) (α := α)) where
  refl _ := id
  trans _ _ _ h h' := h' ∘ h
  duals kind := preserves_pass (LawfulMaster.duals kind) (fun _ _ _ => sameRecord_of_idles)
    fun _ _ => sameRecord_of_idles
  objective := preserves_pass LawfulMaster.objective (fun _ _ _ => sameRecord_of_idles)
    fun _ _ => sameRecord_of_idles
  linkingRow e := preserves_pass (LawfulMaster.linkingRow e)
    (fun _ _ _ h => sameRecord_of_idles h.1) fun _ _ => sameRecord_of_idles
  addVariable name objective domain :=
    preserves_pass (LawfulMaster.addVariable name objective domain)
      (fun _ _ _ h => sameRecord_of_comes h.1 ⟨rfl, rfl⟩) fun _ _ => sameRecord_of_idles
  addRow name rhs := preserves_pass (LawfulMaster.addRow name rhs)
    (fun _ _ _ h => sameRecord_of_comes h.1 ⟨rfl, rfl⟩) fun _ _ => sameRecord_of_idles
  addCoefficient row v a := preserves_pass (LawfulMaster.addCoefficient row v a)
    (fun _ _ _ ⟨_, hl, hc⟩ => sameRecord_of_comes hc (.of_addCoefficient hl))
    fun _ _ => sameRecord_of_idles
  submit := preserves_submit
  releaseVariable v := preserves_pass (LawfulMaster.releaseVariable v)
    (fun _ _ _ ⟨_, hl, hc⟩ => sameRecord_of_comes hc (.of_releaseVariable hl))
    fun _ _ h => sameRecord_of_idles h.1
  releaseRow row := preserves_pass (LawfulMaster.releaseRow row)
    (fun _ _ _ ⟨_, hl, hc⟩ => sameRecord_of_comes hc (.of_releaseRow hl))
    fun _ _ h => sameRecord_of_idles h.1
  reoptimize := preserves_pass LawfulMaster.reoptimize
    (fun _ _ _ ⟨_, hc⟩ => sameRecord_of_comes hc ⟨rfl, rfl⟩) fun _ _ => sameRecord_of_idles

end Recorder

end TourPricing
