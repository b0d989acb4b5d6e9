import Mathlib.Algebra.Order.Ring.Rat
import Mathlib.Data.List.Nodup
import TourPricing.Proofs.Lists
import TourPricing.Proofs.Preserves
import TourPricing.Proofs.Master.Submissions

namespace TourPricing

/-- Numbers whose finite values are compared as in a linear order. -/
class Scalar.Ordered (α : Type) [Scalar α] : Prop where
  le_iff_not_lt {a b : α} : isFinite a = true → isFinite b = true → (a ≤ b ↔ ¬ b < a)
  lt_asymm {a b : α} : isFinite a = true → isFinite b = true → a < b → ¬ b < a
  lt_of_lt_of_le {a b c : α} : isFinite a = true → isFinite b = true → isFinite c = true →
    a < b → b ≤ c → a < c

instance : Scalar.Ordered Rat where
  le_iff_not_lt _ _ := not_lt.symm
  lt_asymm _ _ := not_lt_of_gt
  lt_of_lt_of_le _ _ _ := fun h => h.trans_le

/-- What a ledger may be asked, and that its settings may change. -/
inductive LedgerRequest (α : Type) where
  | duals (kind : CostKind)
  | objective
  | linkingRow (edge : Nat)
  | addVariable (name : String) (cost : α) (domain : Domain)
  | addRow (name : String) (rhs : α)
  | addCoefficient (r : RowId) (v : VariableId) (a : α)
  | submit (assignment : List (VariableId × α))
  | releaseVariable (v : VariableId)
  | releaseRow (r : RowId)
  | reoptimize
  | configure (settings : LedgerSettings α)

inductive LedgerAnswer (α : Type) where
  | done
  | duals (d : Duals α)
  | objective (a : α)
  | linkingRow (r : RowId)
  | newVariable (v : VariableId)
  | newRow (r : RowId)
  | accepted (yes : Bool)
  | status (s : LpStatus)

namespace LedgerAnswer

variable {α : Type}

def newVariable? : LedgerAnswer α → Option VariableId
  | .newVariable v => some v
  | _ => none

def newRow? : LedgerAnswer α → Option RowId
  | .newRow r => some r
  | _ => none

end LedgerAnswer

section

variable {α : Type} [Scalar α]

def LedgerRequest.perform : LedgerRequest α → Ask (Ledger α) (LedgerAnswer α)
  | .duals kind => .duals <$> Master.duals kind
  | .objective => .objective <$> Master.objective
  | .linkingRow e => .linkingRow <$> Master.linkingRow e
  | .addVariable name cost domain => .newVariable <$> Master.addVariable name cost domain
  | .addRow name rhs => .newRow <$> Master.addRow name rhs
  | .addCoefficient r v a => (fun _ => .done) <$> Master.addCoefficient r v a
  | .submit assignment => .accepted <$> Master.submit assignment
  | .releaseVariable v => (fun _ => .done) <$> (Master.releaseVariable v : Ask (Ledger α) Unit)
  | .releaseRow r => (fun _ => .done) <$> (Master.releaseRow r : Ask (Ledger α) Unit)
  | .reoptimize => .status <$> (Master.reoptimize : Ask (Ledger α) LpStatus)
  | .configure settings => do
    modify (·.apply settings)
    pure .done

def LedgerRequest.Known (l : Ledger α) : LedgerRequest α → Prop
  | .linkingRow e => e < l.linkingCount
  | .addCoefficient r v _ => (l.usedVariable? v).isSome ∧ (l.usedRow? r).isSome
  | .submit assignment => ∀ c ∈ assignment, (l.usedVariable? c.1).isSome
  | .releaseVariable v => (l.usedVariable? v).isSome
  | .releaseRow r => (l.usedRow? r).isSome
  | .duals _ | .objective | .addVariable .. | .addRow .. | .reoptimize | .configure _ => True

/-- The answers to requests that are made one after the other, and the ledger that is left. -/
def Ledger.serve : Ledger α → List (LedgerRequest α) →
    List (Except MasterError (LedgerAnswer α)) × Ledger α
  | l, [] => ([], l)
  | l, request :: rest =>
    let (answer, l) := request.perform.run l
    let (answers, l) := l.serve rest
    (answer :: answers, l)

/-- What a request does to a ledger that answers it. -/
inductive LedgerAnswer.Effect (l : Ledger α) : LedgerAnswer α → Ledger α → Prop
  | read {answer : LedgerAnswer α} : answer.newVariable? = none → answer.newRow? = none →
    Effect l answer l
  | configure (settings : LedgerSettings α) : Effect l .done (l.apply settings)
  | addVariable (name : String) (cost : α) (domain : Domain) :
    Effect l (.newVariable ⟨l.columns.size⟩) (l.addVariable name cost domain).2
  | addRow (name : String) (rhs : α) : Effect l (.newRow ⟨l.rows.size⟩) (l.addRow name rhs).2
  | addCoefficient {r : RowId} {v : VariableId} {a : α} {l' : Ledger α} :
    l.withCoefficient r v a = .ok l' → Effect l .done l'
  | submit {assignment : List (VariableId × α)} {yes : Bool} {l' : Ledger α} :
    l.withSubmission assignment = .ok (yes, l') → Effect l (.accepted yes) l'
  | releaseVariable {v : VariableId} {l' : Ledger α} : l.withoutVariable v = .ok l' →
    Effect l .done l'
  | releaseRow {r : RowId} {l' : Ledger α} : l.withoutRow r = .ok l' → Effect l .done l'

/-- A computation either fails without a trace, or it answers with its effect. -/
def Answers (c : Ask (Ledger α) (LedgerAnswer α)) (l : Ledger α) : Prop :=
  (∃ e, c.run l = (.error e, l)) ∨ ∃ answer l', c.run l = (.ok answer, l') ∧ answer.Effect l l'

theorem answers_attempt {β : Type} {request : Ask (Ledger α) β}
    {outcome : Ledger α → Except MasterError (β × Ledger α)} {f : β → LedgerAnswer α}
    {l : Ledger α} (hrequest : request = .attempt outcome)
    (heffect : ∀ b l', outcome l = .ok (b, l') → (f b).Effect l l') :
    Answers (f <$> request) l := by
  rw [Answers, run_map, hrequest, Ask.run_attempt]
  cases hl : outcome l with
  | error e => exact .inl ⟨e, rfl⟩
  | ok result => exact .inr ⟨_, _, rfl, heffect _ _ hl⟩

theorem answers_attempt_map {request : Ask (Ledger α) Unit}
    {update : Ledger α → Except MasterError (Ledger α)} {l : Ledger α}
    (hrequest : request = .attempt fun l => (update l).map ((), ·))
    (heffect : ∀ l', update l = .ok l' → LedgerAnswer.done.Effect l l') :
    Answers ((fun _ : Unit => .done) <$> request) l := by
  apply answers_attempt hrequest
  intro _ l' h
  cases hl : update l with
  | error e =>
    rw [hl] at h
    cases h
  | ok l'' =>
    rw [hl] at h
    cases h
    exact heffect l' hl

theorem LedgerRequest.answers_perform (request : LedgerRequest α) (l : Ledger α) :
    Answers request.perform l := by
  cases request with
  | duals => exact .inr ⟨_, l, rfl, .read rfl rfl⟩
  | objective => exact .inr ⟨_, l, rfl, .read rfl rfl⟩
  | reoptimize => exact .inr ⟨_, l, rfl, .read rfl rfl⟩
  | configure settings => exact .inr ⟨_, _, rfl, .configure settings⟩
  | addVariable name cost domain => exact .inr ⟨_, _, rfl, .addVariable name cost domain⟩
  | addRow name rhs => exact .inr ⟨_, _, rfl, .addRow name rhs⟩
  | linkingRow e =>
    rw [Answers, perform, run_map, Ledger.run_linkingRow]
    by_cases he : e < l.linkingCount
    · rw [if_pos he]
      exact .inr ⟨_, l, rfl, .read rfl rfl⟩
    · rw [if_neg he]
      exact .inl ⟨_, rfl⟩
  | submit assignment =>
    apply answers_attempt (Ledger.submit_eq assignment)
    intro yes l' h
    exact .submit h
  | addCoefficient r v a =>
    apply answers_attempt_map (Ledger.addCoefficient_eq r v a)
    intro l' h
    exact .addCoefficient h
  | releaseVariable v =>
    apply answers_attempt_map (Ledger.releaseVariable_eq v)
    intro l' h
    exact .releaseVariable h
  | releaseRow r =>
    apply answers_attempt_map (Ledger.releaseRow_eq r)
    intro l' h
    exact .releaseRow h

/-- What every effect preserves, all requests preserve. -/
theorem Ledger.serve_induction {P : Ledger α → Prop}
    (step : ∀ {l l' : Ledger α} {answer : LedgerAnswer α}, answer.Effect l l' → P l → P l')
    (requests : List (LedgerRequest α)) {l : Ledger α} (h : P l) : P (l.serve requests).2 := by
  induction requests generalizing l with
  | nil => exact h
  | cons request rest ih =>
    rw [serve]
    rcases request.answers_perform l with ⟨e, hrun⟩ | ⟨answer, l', hrun, heffect⟩
    · rw [hrun]
      exact ih h
    · rw [hrun]
      exact ih (step heffect h)

end

namespace Ledger

variable {α : Type} {l l' l'' : Ledger α} {answer : LedgerAnswer α}

/-- The second ledger knows all that the first one knows under the same ids. What was given up stays
so. -/
structure Extends (l l' : Ledger α) : Prop where
  columns : ∀ (i : Nat) (column : VariableRecord α), l.columns[i]? = some column →
    ∃ released, (column.released = true → released = true) ∧
      l'.columns[i]? = some { column with released }
  rows : ∀ (i : Nat) (row : RowRecord α), l.rows[i]? = some row →
    ∃ coefficients released, (row.released = true → released = true) ∧
      l'.rows[i]? = some { row with coefficients, released }

namespace Extends

theorem trans (h : Extends l l') (h' : Extends l' l'') : Extends l l'' where
  columns i column hi := by
    obtain ⟨released, hreleased, hi⟩ := h.columns i column hi
    obtain ⟨released', hreleased', hi⟩ := h'.columns i _ hi
    exact ⟨released', hreleased' ∘ hreleased, hi⟩
  rows i row hi := by
    obtain ⟨_, released, hreleased, hi⟩ := h.rows i row hi
    obtain ⟨coefficients, released', hreleased', hi⟩ := h'.rows i _ hi
    exact ⟨coefficients, released', hreleased' ∘ hreleased, hi⟩

theorem of_sameModel (h : SameModel l l') : Extends l l' where
  columns _ column hi := ⟨column.released, id, h.columns ▸ hi⟩
  rows _ row hi := ⟨row.coefficients, row.released, id, h.rows ▸ hi⟩

theorem refl (l : Ledger α) : Extends l l :=
  of_sameModel ⟨rfl, rfl, rfl⟩

theorem of_effect [Scalar α] (h : answer.Effect l l') : Extends l l' := by
  cases h with
  | read => exact refl l
  | configure settings => exact of_sameModel (sameModel_apply l settings)
  | submit h => exact of_sameModel (sameModel_of_submit h)
  | addVariable name cost domain =>
    constructor
    case columns =>
      intro i column hi
      have hlt := (Array.getElem?_eq_some_iff.1 hi).1
      refine ⟨column.released, id, ?_⟩
      rw [addVariable, Array.getElem?_push, if_neg hlt.ne]
      exact hi
    case rows => exact (refl l).rows
  | addRow name rhs =>
    constructor
    case columns => exact (refl l).columns
    case rows =>
      intro i row hi
      have hlt := (Array.getElem?_eq_some_iff.1 hi).1
      refine ⟨row.coefficients, row.released, id, ?_⟩
      rw [addRow, Array.getElem?_push, if_neg hlt.ne]
      exact hi
  | addCoefficient h =>
    obtain ⟨_, _, rfl⟩ := eq_of_addCoefficient h
    constructor
    case columns => exact (refl l).columns
    case rows =>
      intro i row hi
      rw [Array.getElem?_modify, hi]
      split
      · exact ⟨_, row.released, id, rfl⟩
      · exact ⟨row.coefficients, row.released, id, rfl⟩
  | releaseVariable h =>
    obtain ⟨_, rfl⟩ := eq_of_releaseVariable h
    constructor
    case columns =>
      intro i column hi
      rw [Array.getElem?_modify, hi]
      split
      · exact ⟨true, fun _ => rfl, rfl⟩
      · exact ⟨column.released, id, rfl⟩
    case rows =>
      intro i row hi
      rw [Array.getElem?_map, hi]
      exact ⟨_, row.released, id, rfl⟩
  | releaseRow h =>
    obtain ⟨_, rfl⟩ := eq_of_releaseRow h
    constructor
    case columns => exact (refl l).columns
    case rows =>
      intro i row hi
      rw [Array.getElem?_modify, hi]
      split
      · exact ⟨row.coefficients, true, fun _ => rfl, rfl⟩
      · exact ⟨row.coefficients, row.released, id, rfl⟩

theorem serve [Scalar α] (l : Ledger α) (requests : List (LedgerRequest α)) :
    Extends l (l.serve requests).2 :=
  serve_induction (fun heffect h => h.trans (of_effect heffect)) requests (refl l)

end Extends

def Referenced (l : Ledger α) : Prop :=
  ∀ r v, l.coefficientsAt r v ≠ [] → (l.usedVariable? v).isSome

namespace Referenced

theorem withEdges [Scalar α] (n : Nat) : Referenced (Ledger.withEdges n : Ledger α) := by
  intro r v h
  exact absurd (coefficientsAt_withEdges n r v) h

theorem of_sameModel (h : SameModel l l') (hl : Referenced l) : Referenced l' := by
  intro r v hne
  rw [h.usedVariable?]
  apply hl r
  rwa [← h.coefficientsAt]

theorem of_changes {v : VariableId} (h : ChangesOnly v l l') (hl : Referenced l)
    (hv : ∀ r, l'.coefficientsAt r v ≠ [] → (l'.usedVariable? v).isSome) : Referenced l' := by
  intro r w hne
  by_cases hw : w = v
  · subst hw
    exact hv r hne
  · rw [h.used w hw]
    apply hl r
    rwa [← h.coefficients r w hw]

theorem of_effect [Scalar α] (h : answer.Effect l l') (hl : Referenced l) : Referenced l' := by
  cases h with
  | read => exact hl
  | configure settings => exact of_sameModel (sameModel_apply l settings) hl
  | submit h => exact of_sameModel (sameModel_of_submit h) hl
  | addVariable name cost domain =>
    apply of_changes (addVariable_changes l name cost domain) hl
    intro r _
    rw [usedVariable?_addVariable]
    rfl
  | addRow name rhs =>
    intro r v hne
    rw [coefficientsAt_addRow] at hne
    exact hl r v hne
  | addCoefficient h =>
    apply of_changes (changes_of_addCoefficient h) hl
    intro r _
    rw [usedVariable?_of_addCoefficient h]
    exact (eq_of_addCoefficient h).1
  | releaseVariable h =>
    apply of_changes (changes_of_releaseVariable h) hl
    intro r hne
    exact absurd (coefficientsAt_of_releaseVariable h r) hne
  | releaseRow h =>
    intro r v hne
    rw [coefficientsAt_of_releaseRow h] at hne
    obtain ⟨_, rfl⟩ := eq_of_releaseRow h
    exact hl r v hne

theorem isSome (h : Referenced l) {row : RowRecord α} (hrow : row ∈ l.rows)
    {c : VariableId × α} (hc : c ∈ row.coefficients) : (l.usedVariable? c.1).isSome := by
  obtain ⟨i, hi⟩ := Array.mem_iff_getElem?.1 hrow
  apply h ⟨i⟩
  rw [coefficientsAt, hi]
  apply List.ne_nil_of_mem
  exact List.mem_map_of_mem (List.mem_filter.2 ⟨hc, decide_eq_true rfl⟩)

end Referenced

def offered (submissions : List (Submission α)) : List α :=
  (submissions.filter (!·.assignment.isEmpty)).map (·.objective)

theorem offered_concat (submissions : List (Submission α)) (s : Submission α) :
    offered (submissions ++ [s]) =
      offered submissions ++ if s.assignment.isEmpty then [] else [s.objective] := by
  rw [offered, List.filter_append, List.map_append]
  cases hs : s.assignment.isEmpty <;> simp [offered, hs]

section

variable [Scalar α]

def IsBest (best : Option α) (values : List α) : Prop :=
  match best with
  | none => values = []
  | some b => b ∈ values ∧ ∀ c ∈ values, b ≤ c

section

variable [Scalar.Ordered α] {best : Option α} {values : List α} {a : α}
  (hvalues : ∀ c ∈ values, Scalar.isFinite c = true) (ha : Scalar.isFinite a = true)

include hvalues ha

theorem IsBest.all_lt_iff (h : IsBest best values) :
    best.all (a < ·) = true ↔ ∀ c ∈ values, a < c := by
  cases best with
  | none =>
    have hnil : values = [] := h
    simp [hnil]
  | some b =>
    obtain ⟨hb, hleast⟩ := h
    rw [Option.all_some, decide_eq_true_iff]
    constructor
    · intro hab c hc
      exact Scalar.Ordered.lt_of_lt_of_le ha (hvalues b hb) (hvalues c hc) hab (hleast c hc)
    · intro hall
      exact hall b hb

theorem IsBest.concat (h : IsBest best values) :
    IsBest (if best.all (a < ·) then some a else best) (values ++ [a]) := by
  have hself : a ≤ a := by
    rw [Scalar.Ordered.le_iff_not_lt ha ha]
    exact fun hlt => Scalar.Ordered.lt_asymm ha ha hlt hlt
  by_cases hall : best.all (a < ·) = true
  · rw [if_pos hall]
    rw [h.all_lt_iff hvalues ha] at hall
    constructor
    · exact List.mem_append_right _ (List.mem_singleton_self a)
    · intro c hc
      rcases List.mem_append.1 hc with hc | hc
      · rw [Scalar.Ordered.le_iff_not_lt ha (hvalues c hc)]
        exact Scalar.Ordered.lt_asymm ha (hvalues c hc) (hall c hc)
      · rw [List.mem_singleton.1 hc]
        exact hself
  · rw [if_neg hall]
    cases best with
    | none => exact absurd rfl hall
    | some b =>
      obtain ⟨hb, hleast⟩ := h
      rw [Option.all_some, decide_eq_true_iff] at hall
      constructor
      · exact List.mem_append_left _ hb
      · intro c hc
        rcases List.mem_append.1 hc with hc | hc
        · exact hleast c hc
        · rw [List.mem_singleton.1 hc]
          exact (Scalar.Ordered.le_iff_not_lt (hvalues b hb) ha).2 hall

end

/-- The judgement of a ledger on the solutions that it was offered. -/
structure Ranked (l : Ledger α) : Prop where
  accepted_iff : ∀ before s after, l.submissions.toList = before ++ s :: after →
    (s.accepted = true ↔ s.assignment ≠ [] ∧ ∀ c ∈ offered before, s.objective < c)
  best : IsBest l.bestAccepted (offered l.submissions.toList)

def IsFinite (l : Ledger α) : Prop :=
  ∀ c ∈ offered l.submissions.toList, Scalar.isFinite c = true

theorem record_cases_of_effect (h : answer.Effect l l') :
    SameRecord l l' ∨ ∃ assignment accepted, l.withSubmission assignment = .ok (accepted, l') := by
  cases h with
  | read => exact .inl (.refl l)
  | configure | addVariable | addRow => exact .inl ⟨rfl, rfl⟩
  | addCoefficient h => exact .inl (.of_addCoefficient h)
  | submit h => exact .inr ⟨_, _, h⟩
  | releaseVariable h => exact .inl (.of_releaseVariable h)
  | releaseRow h => exact .inl (.of_releaseRow h)

theorem Ranked.of_sameRecord (h : SameRecord l l') (hl : Ranked l) : Ranked l' where
  accepted_iff before s after hs := hl.accepted_iff before s after (h.submissions ▸ hs)
  best := by
    rw [h.submissions, h.bestAccepted]
    exact hl.best

theorem Ranked.of_submit [Scalar.Ordered α] {assignment : List (VariableId × α)} {accepted : Bool}
    (h : l.withSubmission assignment = .ok (accepted, l')) (hfinite : IsFinite l')
    (hl : IsFinite l → Ranked l) : Ranked l' := by
  obtain ⟨objective, _, haccepted, rfl⟩ := eq_of_submit h
  rw [IsFinite, Array.toList_push, offered_concat] at hfinite
  have hbefore : IsFinite l := fun c hc => hfinite c (List.mem_append_left _ hc)
  have hranked := hl hbefore
  have hjudged : (accepted = true ↔
      assignment ≠ [] ∧ ∀ c ∈ offered l.submissions.toList, objective < c) ∧
      IsBest (if accepted = true then some objective else l.bestAccepted)
        (offered l.submissions.toList ++ if assignment.isEmpty then [] else [objective]) := by
    cases hempty : assignment.isEmpty with
    | true =>
      have haccepted : accepted = false := by rw [haccepted, hempty, Bool.not_true, Bool.false_and]
      rw [haccepted, List.isEmpty_iff.1 hempty]
      simpa using hranked.best
    | false =>
      have hobjective : Scalar.isFinite objective = true := by
        apply hfinite
        simp [hempty]
      rw [hempty, Bool.not_false, Bool.true_and] at haccepted
      constructor
      · rw [haccepted, hranked.best.all_lt_iff hbefore hobjective]
        simp [List.isEmpty_eq_false_iff.1 hempty]
      · subst haccepted
        exact hranked.best.concat hbefore hobjective
  constructor
  case accepted_iff =>
    intro before s after hs
    rw [Array.toList_push] at hs
    rcases cases_of_concat_eq hs with ⟨rfl, rfl, _⟩ | ⟨rest, _, hbefore⟩
    · exact hjudged.1
    · exact hranked.accepted_iff before s rest hbefore
  case best =>
    rw [Array.toList_push, offered_concat]
    exact hjudged.2

theorem Ranked.of_effect [Scalar.Ordered α] (h : answer.Effect l l')
    (hl : IsFinite l → Ranked l) : IsFinite l' → Ranked l' := by
  intro hfinite
  rcases record_cases_of_effect h with hsame | ⟨assignment, accepted, hsubmit⟩
  · apply of_sameRecord hsame
    apply hl
    rwa [IsFinite, ← hsame.submissions]
  · exact of_submit hsubmit hfinite hl

def given {β : Type} (pick : LedgerAnswer α → Option β)
    (answers : List (Except MasterError (LedgerAnswer α))) : List β :=
  answers.filterMap fun answer => answer.toOption.bind pick

theorem range_append_given {β : Type} {pick : LedgerAnswer α → Option β} {number : β → Nat}
    {size : Ledger α → Nat}
    (step : ∀ {l l' : Ledger α} {answer : LedgerAnswer α}, answer.Effect l l' →
      List.range (size l) ++ (pick answer).toList.map number = List.range (size l'))
    (l : Ledger α) (requests : List (LedgerRequest α)) :
    List.range (size l) ++ (given pick (l.serve requests).1).map number =
      List.range (size (l.serve requests).2) := by
  induction requests generalizing l with
  | nil => exact List.append_nil _
  | cons request rest ih =>
    rw [serve]
    rcases request.answers_perform l with ⟨e, hrun⟩ | ⟨answer, l', hrun, heffect⟩
    · rw [hrun]
      exact ih l
    · rw [hrun]
      have hgiven : given pick (.ok answer :: (l'.serve rest).1) =
          (pick answer).toList ++ given pick (l'.serve rest).1 := by
        cases hpick : pick answer <;> simp [given, Except.toOption, hpick]
      change _ ++ (given pick (.ok answer :: (l'.serve rest).1)).map number = _
      rw [hgiven, List.map_append, ← List.append_assoc, step heffect]
      exact ih l'

theorem range_columns_of_effect (h : answer.Effect l l') :
    List.range l.columns.size ++ answer.newVariable?.toList.map (·.index) =
      List.range l'.columns.size := by
  cases h with
  | read hv _ => simp [hv]
  | configure => exact List.append_nil _
  | addVariable => simp [LedgerAnswer.newVariable?, addVariable, List.range_succ]
  | addRow => exact List.append_nil _
  | addCoefficient h =>
    obtain ⟨_, _, rfl⟩ := eq_of_addCoefficient h
    exact List.append_nil _
  | submit h =>
    rw [(sameModel_of_submit h).columns]
    exact List.append_nil _
  | releaseVariable h =>
    obtain ⟨_, rfl⟩ := eq_of_releaseVariable h
    simp [LedgerAnswer.newVariable?]
  | releaseRow h =>
    obtain ⟨_, rfl⟩ := eq_of_releaseRow h
    exact List.append_nil _

theorem range_rows_of_effect (h : answer.Effect l l') :
    List.range l.rows.size ++ answer.newRow?.toList.map (·.index) = List.range l'.rows.size := by
  cases h with
  | read _ hr => simp [hr]
  | configure => exact List.append_nil _
  | addVariable => exact List.append_nil _
  | addRow => simp [LedgerAnswer.newRow?, addRow, List.range_succ]
  | addCoefficient h =>
    obtain ⟨_, _, rfl⟩ := eq_of_addCoefficient h
    simp [LedgerAnswer.newRow?]
  | submit h =>
    rw [(sameModel_of_submit h).rows]
    exact List.append_nil _
  | releaseVariable h =>
    obtain ⟨_, rfl⟩ := eq_of_releaseVariable h
    simp [LedgerAnswer.newRow?]
  | releaseRow h =>
    obtain ⟨_, rfl⟩ := eq_of_releaseRow h
    simp [LedgerAnswer.newRow?]

theorem exists_value_iff {assignment : List (VariableId × α)} :
    (∃ objective, l.value assignment = .ok objective) ↔
      ∀ c ∈ assignment, (l.usedVariable? c.1).isSome := by
  rw [value]
  generalize (Scalar.ofNat 0 : α) = start
  induction assignment generalizing start with
  | nil => exact iff_of_true ⟨start, rfl⟩ nofun
  | cons c rest ih =>
    rw [List.foldlM_cons, List.forall_mem_cons]
    cases hc : l.usedVariable? c.1 with
    | none =>
      simp only [hc]
      exact iff_of_false nofun nofun
    | some column =>
      simp only [hc]
      exact (ih _).trans (and_iff_right rfl).symm

/-- A ledger over `n` edges after some requests, given what was answered to them. -/
structure Orderly (n : Nat) (answers : List (Except MasterError (LedgerAnswer α)))
    (l : Ledger α) : Prop where
  coefficients : ∀ row ∈ l.rows, ∀ c ∈ row.coefficients, (l.usedVariable? c.1).isSome
  newVariables : (given (·.newVariable?) answers).Nodup
  newRows : (given (·.newRow?) answers).Nodup ∧ ∀ r ∈ given (·.newRow?) answers, n ≤ r.index
  keeps : ∀ requests, Extends l (l.serve requests).2
  refused : ∀ (request : LedgerRequest α) e, (request.perform.run l).1 = .error e →
    (request.perform.run l).2 = l
  refused_iff : ∀ request : LedgerRequest α,
    (∃ e, request.perform.run l = (.error e, l)) ↔ ¬ request.Known l
  recorded : ∀ assignment yes l',
    (LedgerRequest.submit assignment).perform.run l = (.ok (.accepted yes), l') →
    ∃ objective, l.value assignment = .ok objective ∧
      l'.submissions = l.submissions.push ⟨assignment, objective, yes⟩
  ranked : IsFinite l → Ranked l

theorem refused_perform (request : LedgerRequest α) (e : MasterError)
    (h : (request.perform.run l).1 = .error e) : (request.perform.run l).2 = l := by
  rcases request.answers_perform l with ⟨e, hrun⟩ | ⟨answer, l', hrun, _⟩
  · rw [hrun]
  · rw [hrun] at h
    cases h

theorem run_submit (l : Ledger α) (assignment : List (VariableId × α)) :
    (LedgerRequest.submit assignment).perform.run l = match l.withSubmission assignment with
      | .ok (yes, l') => (.ok (.accepted yes), l')
      | .error e => (.error e, l) := by
  have hsubmit : (Master.submit assignment : Ask (Ledger α) Bool) = _ := submit_eq assignment
  rw [LedgerRequest.perform, run_map, hsubmit, Ask.run_attempt]
  cases l.withSubmission assignment <;> rfl

omit [Scalar α] in
theorem refused_attempt_iff {β : Type} {request : Ask (Ledger α) β}
    {outcome : Ledger α → Except MasterError (β × Ledger α)} {f : β → LedgerAnswer α}
    (hrequest : request = .attempt outcome) :
    (∃ e, (f <$> request).run l = (.error e, l)) ↔ ¬ ∃ result, outcome l = .ok result := by
  rw [run_map, hrequest, Ask.run_attempt]
  cases outcome l with
  | error e => exact iff_of_true ⟨e, rfl⟩ nofun
  | ok result => exact iff_of_false nofun (not_not.2 ⟨result, rfl⟩)

theorem refused_perform_iff (request : LedgerRequest α) :
    (∃ e, request.perform.run l = (.error e, l)) ↔ ¬ request.Known l := by
  cases request with
  | duals | objective | addVariable | addRow | reoptimize | configure =>
    exact iff_of_false nofun (not_not.2 trivial)
  | linkingRow e =>
    rw [LedgerRequest.perform, run_map, run_linkingRow, LedgerRequest.Known]
    by_cases he : e < l.linkingCount
    · rw [if_pos he]
      exact iff_of_false nofun (not_not.2 he)
    · rw [if_neg he]
      exact iff_of_true ⟨_, rfl⟩ he
  | addCoefficient r v a =>
    apply (refused_attempt_iff (addCoefficient_eq r v a)).trans
    rw [withCoefficient, LedgerRequest.Known]
    cases l.usedVariable? v <;> cases l.usedRow? r <;> simp [Except.map]
  | submit assignment =>
    apply (refused_attempt_iff (submit_eq assignment)).trans
    rw [withSubmission, LedgerRequest.Known, ← exists_value_iff]
    cases l.value assignment <;> simp [bind, Except.bind, pure, Except.pure]
  | releaseVariable v =>
    apply (refused_attempt_iff (releaseVariable_eq v)).trans
    rw [withoutVariable, LedgerRequest.Known]
    cases l.usedVariable? v <;> simp [Except.map]
  | releaseRow r =>
    apply (refused_attempt_iff (releaseRow_eq r)).trans
    rw [withoutRow, LedgerRequest.Known]
    cases l.usedRow? r <;> simp [Except.map]

theorem eq_of_run_submit {assignment : List (VariableId × α)} {yes : Bool}
    (h : (LedgerRequest.submit assignment).perform.run l = (.ok (.accepted yes), l')) :
    ∃ objective, l.value assignment = .ok objective ∧
      l'.submissions = l.submissions.push ⟨assignment, objective, yes⟩ := by
  rw [run_submit] at h
  cases hsubmit : l.withSubmission assignment with
  | error e =>
    rw [hsubmit] at h
    cases h
  | ok result =>
    rw [hsubmit] at h
    cases h
    obtain ⟨objective, hvalue, _, hl⟩ := eq_of_submit hsubmit
    refine ⟨objective, hvalue, ?_⟩
    rw [hl]

/-- Whatever is asked of a ledger, it stays orderly. -/
theorem orderly_serve [Scalar.Ordered α] (n : Nat) (requests : List (LedgerRequest α)) :
    Orderly n ((withEdges n).serve requests).1 ((withEdges n).serve requests).2 := by
  have hreferenced : Referenced ((withEdges n).serve requests).2 :=
    serve_induction Referenced.of_effect requests (.withEdges n)
  have hcolumns := range_append_given range_columns_of_effect (withEdges n) requests
  have hrows := range_append_given range_rows_of_effect (withEdges n) requests
  have hdistinct := List.nodup_range (n := ((withEdges n).serve requests).2.rows.size)
  rw [← hrows] at hdistinct
  have hn : (withEdges n : Ledger α).rows.size = n := by simp [withEdges]
  constructor
  case coefficients =>
    intro row hrow c hc
    exact hreferenced.isSome hrow hc
  case newVariables =>
    apply List.Nodup.of_map (·.index)
    have hnodup := List.nodup_range (n := ((withEdges n).serve requests).2.columns.size)
    rw [← hcolumns] at hnodup
    exact hnodup.of_append_right
  case newRows =>
    constructor
    · exact hdistinct.of_append_right.of_map (·.index)
    · intro r hr
      have hdisjoint := List.disjoint_of_nodup_append hdistinct
      by_contra hlt
      apply hdisjoint (a := r.index)
      · rw [List.mem_range, hn]
        exact Nat.not_le.1 hlt
      · exact List.mem_map_of_mem hr
  case keeps => exact Extends.serve _
  case refused => exact refused_perform
  case refused_iff => exact refused_perform_iff
  case recorded =>
    intro assignment yes l' h
    exact eq_of_run_submit h
  case ranked =>
    apply serve_induction (P := fun l => IsFinite l → Ranked l) Ranked.of_effect
    intro _
    constructor
    case accepted_iff =>
      intro before s after hs
      exact absurd (congrArg List.length hs) (by simp [withEdges])
    case best => rfl

end

def mixed : List (Except MasterError (LedgerAnswer Rat)) × Ledger Rat :=
  (withEdges 2).serve
    [.addVariable "x" 3 .binary, .addVariable "y" 2 .binary, .addCoefficient ⟨0⟩ ⟨0⟩ 1,
      .addCoefficient ⟨7⟩ ⟨0⟩ 1, .addRow "flow" 0, .submit [(⟨0⟩, 1)], .submit [],
      .submit [(⟨1⟩, 1), (⟨5⟩, 1)], .submit [(⟨1⟩, 1)], .submit [(⟨1⟩, 2)], .releaseVariable ⟨0⟩,
      .addCoefficient ⟨0⟩ ⟨0⟩ 1, .submit [(⟨0⟩, 1)], .releaseRow ⟨2⟩, .releaseRow ⟨2⟩]

theorem orderly_mixed :
    mixed.1.map (·.toBool) = [true, true, true, false, true, true, true, false, true, true, true,
      false, false, true, false] ∧
    mixed.2.submissions.map (·.accepted) = #[true, false, true, false] ∧
    mixed.2.bestAccepted = some 2 ∧ Orderly 2 mixed.1 mixed.2 :=
  ⟨by decide +kernel, by decide +kernel, by decide +kernel, orderly_serve 2 _⟩

end Ledger

end TourPricing
