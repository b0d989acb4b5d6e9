import TourPricing.Master.Scripted
import TourPricing.Proofs.Master.Ledger
import TourPricing.Proofs.Triple

namespace TourPricing

open Std.Do

set_option mvcgen.warning false

/-- An assignment that was offered as a solution, with the ledger as it was then. -/
structure Offer (α : Type) where
  ledger : Ledger α
  assignment : List (VariableId × α)

/-- A type of masters with a ledger. They may remember what they were offered. -/
class HasLedger (M : Type) (α : outParam Type) where
  ledger : M → Ledger α
  offers : M → List (Offer α)
  /-- Whether a request to give up a variable or a row was refused so far. -/
  releaseRefused : M → Prop
  /-- Whether such requests are never refused. -/
  reliable : M → Prop

section

variable {M α : Type} [HasLedger M α]

/-- A master comes to have a ledger. It remembers nothing that was not offered to it, does not
forget a refusal, and stays reliable. -/
structure Comes (m m' : M) (l : Ledger α) (offered : List (Offer α)) : Prop where
  ledger : HasLedger.ledger m' = l
  offers : ∀ o ∈ HasLedger.offers m', o ∈ HasLedger.offers m ∨ o ∈ offered
  releaseRefused : HasLedger.releaseRefused m → HasLedger.releaseRefused m'
  reliable : HasLedger.reliable m → HasLedger.reliable m'

abbrev Idles (m m' : M) : Prop :=
  Comes m m' (HasLedger.ledger m) []

theorem Comes.refl (m : M) : Idles m m :=
  ⟨rfl, fun _ ho => .inl ho, id, id⟩

theorem Comes.trans {m m' m'' : M} {l l' : Ledger α} (h : Comes m m' l [])
    (h' : Comes m' m'' l' []) : Comes m m'' l' [] where
  ledger := h'.ledger
  offers o ho := h.offers o ((h'.offers o ho).resolve_right nofun)
  releaseRefused := h'.releaseRefused ∘ h.releaseRefused
  reliable := h'.reliable ∘ h.reliable

theorem Comes.idle {m m' m'' : M} {l : Ledger α} (h : Comes m m' l []) (h' : Idles m' m'') :
    Comes m m'' l [] :=
  h.trans (h.ledger ▸ h')

end

/-- The laws of a master that keeps a ledger. -/
class LawfulMaster (M : Type) {α : Type} [Scalar α] [Master M α] [HasLedger M α] : Prop where
  duals (kind : CostKind) (m : M) : ⦃fun s => ⌜s = m⌝⦄ (Master.duals kind : Ask M (Duals α))
    ⦃post⟨fun _ s => ⌜Idles m s⌝, fun _ s => ⌜Idles m s⌝⟩⦄
  objective (m : M) : ⦃fun s => ⌜s = m⌝⦄ (Master.objective : Ask M α)
    ⦃post⟨fun _ s => ⌜Idles m s⌝, fun _ s => ⌜Idles m s⌝⟩⦄
  linkingRow (e : Nat) (m : M) : ⦃fun s => ⌜s = m⌝⦄ (Master.linkingRow e : Ask M RowId)
    ⦃post⟨fun r s => ⌜Idles m s ∧ r = ⟨e⟩ ∧ e < (HasLedger.ledger m).linkingCount⌝,
      fun _ s => ⌜Idles m s⌝⟩⦄
  addVariable (name : String) (objective : α) (domain : Domain) (m : M) :
    ⦃fun s => ⌜s = m⌝⦄ (Master.addVariable name objective domain : Ask M VariableId)
    ⦃post⟨fun v s => ⌜Comes m s ((HasLedger.ledger m).addVariable name objective domain).2 [] ∧
        v = ⟨(HasLedger.ledger m).columns.size⟩⌝, fun _ s => ⌜Idles m s⌝⟩⦄
  addRow (name : String) (rhs : α) (m : M) :
    ⦃fun s => ⌜s = m⌝⦄ (Master.addRow name rhs : Ask M RowId)
    ⦃post⟨fun r s => ⌜Comes m s ((HasLedger.ledger m).addRow name rhs).2 [] ∧
        r = ⟨(HasLedger.ledger m).rows.size⟩⌝, fun _ s => ⌜Idles m s⌝⟩⦄
  addCoefficient (r : RowId) (v : VariableId) (a : α) (m : M) :
    ⦃fun s => ⌜s = m⌝⦄ (Master.addCoefficient r v a : Ask M Unit)
    ⦃post⟨fun _ s => ⌜∃ l, (HasLedger.ledger m).withCoefficient r v a = .ok l ∧ Comes m s l []⌝,
      fun _ s => ⌜Idles m s⌝⟩⦄
  submit (assignment : List (VariableId × α)) (m : M) :
    ⦃fun s => ⌜s = m⌝⦄ (Master.submit assignment : Ask M Bool)
    ⦃post⟨fun accepted s => ⌜∃ l,
        (HasLedger.ledger m).withSubmission assignment = .ok (accepted, l) ∧
        Comes m s l [⟨HasLedger.ledger m, assignment⟩]⌝,
      fun _ s => ⌜Comes m s (HasLedger.ledger m) [⟨HasLedger.ledger m, assignment⟩]⌝⟩⦄
  releaseVariable (v : VariableId) (m : M) :
    ⦃fun s => ⌜s = m⌝⦄ (Master.releaseVariable v : Ask M Unit)
    ⦃post⟨fun _ s => ⌜∃ l, (HasLedger.ledger m).withoutVariable v = .ok l ∧ Comes m s l []⌝,
      fun _ s => ⌜Idles m s ∧ (HasLedger.releaseRefused s ∨
        ∃ e, (HasLedger.ledger m).withoutVariable v = .error e)⌝⟩⦄
  releaseRow (r : RowId) (m : M) :
    ⦃fun s => ⌜s = m⌝⦄ (Master.releaseRow r : Ask M Unit)
    ⦃post⟨fun _ s => ⌜∃ l, (HasLedger.ledger m).withoutRow r = .ok l ∧ Comes m s l []⌝,
      fun _ s => ⌜Idles m s ∧ (HasLedger.releaseRefused s ∨
        ∃ e, (HasLedger.ledger m).withoutRow r = .error e)⌝⟩⦄
  reoptimize (m : M) : ⦃fun s => ⌜s = m⌝⦄ (Master.reoptimize : Ask M LpStatus)
    ⦃post⟨fun _ s => ⌜∃ settings, Comes m s ((HasLedger.ledger m).apply settings) []⌝,
      fun _ s => ⌜Idles m s⌝⟩⦄
  not_releaseRefused (m : M) : HasLedger.reliable m → ¬ HasLedger.releaseRefused m

namespace ScriptedMaster

variable {α : Type}

def ReleaseRefused (m : ScriptedMaster α) : Prop :=
  ∃ sort n, (sort = .releaseVariable ∨ sort = .releaseRow) ∧ 0 < n ∧ n ≤ m.count sort ∧
    m.script.refuses sort n = true

def Reliable (m : ScriptedMaster α) : Prop :=
  ∀ n, m.script.refuses .releaseVariable n = false ∧ m.script.refuses .releaseRow n = false

/-- A scripted master remembers no offers besides the submissions in its ledger. -/
instance : HasLedger (ScriptedMaster α) α where
  ledger := ledger
  offers _ := []
  releaseRefused := ReleaseRefused
  reliable := Reliable

def counted (m : ScriptedMaster α) (sort : Request) : ScriptedMaster α :=
  { m with counts := (sort, m.count sort + 1) :: m.counts.filter (·.1 != sort) }

theorem lookup_filter_ne {counts : List (Request × Nat)} {sort other : Request}
    (h : other ≠ sort) : (counts.filter (·.1 != sort)).lookup other = counts.lookup other := by
  induction counts with
  | nil => rfl
  | cons p rest ih =>
    by_cases hp : p.1 = sort
    · have hne : other ≠ p.1 := hp ▸ h
      rw [List.filter_cons_of_neg (by simp [hp]), ih, List.lookup_cons, beq_false_of_ne hne]
    · rw [List.filter_cons_of_pos (by simp [hp]), List.lookup_cons, List.lookup_cons, ih]

theorem count_counted (m : ScriptedMaster α) (sort other : Request) :
    (m.counted sort).count other = m.count other + if other = sort then 1 else 0 := by
  rw [count, counted, List.lookup_cons]
  by_cases h : other = sort
  · simp [h]
  · rw [beq_false_of_ne h, lookup_filter_ne h, if_neg h]
    rfl

theorem ReleaseRefused.counted {m : ScriptedMaster α} (h : m.ReleaseRefused) (sort : Request) :
    (m.counted sort).ReleaseRefused := by
  obtain ⟨kind, n, hkind, hn, hle, hrefuses⟩ := h
  refine ⟨kind, n, hkind, hn, ?_, hrefuses⟩
  rw [count_counted]
  exact Nat.le_add_right_of_le hle

theorem comes_counted (m : ScriptedMaster α) (sort : Request) (l : Ledger α) :
    Comes m { m.counted sort with ledger := l } l [] :=
  ⟨rfl, fun _ ho => .inl ho, fun h => h.counted sort, id⟩

theorem pass_spec {β : Type} (sort : Request) (request : Ask (Ledger α) β) (m : ScriptedMaster α) :
    ⦃fun s => ⌜s = m⌝⦄ pass sort request
    ⦃post⟨fun b s => ⌜∃ l, request.run m.ledger = (.ok b, l) ∧ Comes m s l []⌝,
      fun e s => ⌜Idles m s ∧ m.script.refuses sort (m.count sort + 1) = true ∧ s = m.counted sort ∨
        ∃ l, request.run m.ledger = (.error e, l) ∧ Comes m s l []⌝⟩⦄ := by
  rw [triple_iff]
  rintro s rfl
  by_cases href : s.script.refuses sort (s.count sort + 1) = true
  · have hrun : (pass sort request).run s =
        (.error (refusal (s.counted sort) sort), s.counted sort) := if_pos href
    rw [hrun]
    exact .inl ⟨comes_counted s sort s.ledger, href, rfl⟩
  · have hrun : (pass sort request).run s =
        ((request.run s.ledger).1, { s.counted sort with ledger := (request.run s.ledger).2 }) :=
      if_neg href
    rw [hrun]
    rcases request.run s.ledger with ⟨e | b, l⟩
    · exact .inr ⟨l, rfl, comes_counted s sort l⟩
    · exact ⟨l, rfl, comes_counted s sort l⟩

theorem releaseRefused_counted {m : ScriptedMaster α} {sort : Request}
    (hsort : sort = .releaseVariable ∨ sort = .releaseRow)
    (href : m.script.refuses sort (m.count sort + 1) = true) : (m.counted sort).ReleaseRefused := by
  refine ⟨sort, m.count sort + 1, hsort, Nat.succ_pos _, ?_, href⟩
  rw [count_counted, if_pos rfl]

theorem pass_attempt_spec {β : Type} (sort : Request) {request : Ask (Ledger α) β}
    {outcome : Ledger α → Except MasterError (β × Ledger α)} (hrequest : request = .attempt outcome)
    (m : ScriptedMaster α) :
    ⦃fun s => ⌜s = m⌝⦄ pass sort request
    ⦃post⟨fun b s => ⌜∃ l, outcome m.ledger = .ok (b, l) ∧ Comes m s l []⌝,
      fun e s => ⌜Idles m s ∧ (m.script.refuses sort (m.count sort + 1) = true ∧
        s = m.counted sort ∨ outcome m.ledger = .error e)⌝⟩⦄ := by
  subst hrequest
  refine triple_mono (pass_spec sort _ m) (fun b s h => ?_) fun e s h => ?_
  · obtain ⟨l, hrun, hcomes⟩ := h
    rw [Ask.run_attempt] at hrun
    cases hout : outcome m.ledger with
    | error e =>
      rw [hout] at hrun
      cases hrun
    | ok p =>
      rw [hout] at hrun
      cases hrun
      exact ⟨_, rfl, hcomes⟩
  · rcases h with ⟨hidles, href⟩ | ⟨l, hrun, hcomes⟩
    · exact ⟨hidles, .inl href⟩
    · rw [Ask.run_attempt] at hrun
      cases hout : outcome m.ledger with
      | error e =>
        rw [hout] at hrun
        cases hrun
        exact ⟨hcomes, .inr rfl⟩
      | ok p =>
        rw [hout] at hrun
        cases hrun

theorem pass_reading_spec {β : Type} (sort : Request) (read : Ledger α → Except MasterError β)
    {request : Ask (Ledger α) β} (hrun : ∀ l, request.run l = (read l, l)) (m : ScriptedMaster α) :
    ⦃fun s => ⌜s = m⌝⦄ pass sort request
    ⦃post⟨fun b s => ⌜Idles m s ∧ read m.ledger = .ok b⌝, fun _ s => ⌜Idles m s⌝⟩⦄ := by
  refine triple_mono (pass_spec sort _ m) (fun b s h => ?_) fun e s h => ?_
  · obtain ⟨l, h, hcomes⟩ := h
    rw [hrun] at h
    obtain ⟨hread, rfl⟩ := Prod.mk.inj h
    exact ⟨hcomes, hread⟩
  · rcases h with ⟨hidles, _⟩ | ⟨l, h, hcomes⟩
    · exact hidles
    · rw [hrun] at h
      obtain ⟨_, rfl⟩ := Prod.mk.inj h
      exact hcomes

theorem pass_update_spec (sort : Request) {request : Ask (Ledger α) Unit}
    {update : Ledger α → Except MasterError (Ledger α)}
    (hrequest : request = .attempt fun l => (update l).map ((), ·)) (m : ScriptedMaster α) :
    ⦃fun s => ⌜s = m⌝⦄ pass sort request
    ⦃post⟨fun _ s => ⌜∃ l, update m.ledger = .ok l ∧ Comes m s l []⌝,
      fun e s => ⌜Idles m s ∧ (m.script.refuses sort (m.count sort + 1) = true ∧
        s = m.counted sort ∨ update m.ledger = .error e)⌝⟩⦄ := by
  refine triple_mono (pass_attempt_spec sort hrequest m) (fun _ s h => ?_) fun e s h => ?_
  · obtain ⟨l, hok, hcomes⟩ := h
    cases hupdate : update m.ledger with
    | error e =>
      rw [hupdate] at hok
      cases hok
    | ok l' =>
      rw [hupdate] at hok
      cases hok
      exact ⟨l, rfl, hcomes⟩
  · refine ⟨h.1, h.2.imp_right fun herror => ?_⟩
    cases hupdate : update m.ledger with
    | error e =>
      rw [hupdate] at herror
      cases herror
      rfl
    | ok l' =>
      rw [hupdate] at herror
      cases herror

theorem pass_release_spec {sort : Request} (hsort : sort = .releaseVariable ∨ sort = .releaseRow)
    {request : Ask (Ledger α) Unit} {update : Ledger α → Except MasterError (Ledger α)}
    (hrequest : request = .attempt fun l => (update l).map ((), ·)) (m : ScriptedMaster α) :
    ⦃fun s => ⌜s = m⌝⦄ pass sort request
    ⦃post⟨fun _ s => ⌜∃ l, update m.ledger = .ok l ∧ Comes m s l []⌝,
      fun _ s => ⌜Idles m s ∧
        (HasLedger.releaseRefused s ∨ ∃ e, update m.ledger = .error e)⌝⟩⦄ := by
  refine triple_mono (pass_update_spec sort hrequest m) (fun _ _ => id) fun e s h => ⟨h.1, ?_⟩
  rcases h.2 with ⟨href, rfl⟩ | herror
  · exact .inl (releaseRefused_counted hsort href)
  · exact .inr ⟨e, herror⟩

theorem exists_solve (m : ScriptedMaster α) : ∃ settings,
    m.solve.2.ledger = m.ledger.apply settings ∧ m.solve.2.script = m.script ∧
      m.solve.2.counts = m.counts := by
  rw [solve]
  dsimp only
  split
  · exact ⟨{}, rfl, rfl, rfl⟩
  · rename_i step _
    exact ⟨step.settings, rfl, rfl, rfl⟩

variable [Scalar α]

instance : LawfulMaster (ScriptedMaster α) where
  duals kind m :=
    triple_mono (pass_reading_spec .duals _ (fun _ => rfl) m) (fun _ _ h => h.1) fun _ _ => id
  objective m :=
    triple_mono (pass_reading_spec .objective _ (fun _ => rfl) m) (fun _ _ h => h.1) fun _ _ => id
  linkingRow e m := by
    refine triple_mono (pass_reading_spec .linkingRow _ (Ledger.run_linkingRow e) m)
      (fun r s h => ?_) fun _ _ => id
    obtain ⟨hidles, hread⟩ := h
    split at hread
    · rename_i he
      cases hread
      exact ⟨hidles, rfl, he⟩
    · cases hread
  addVariable name objective domain m := by
    refine triple_mono (pass_attempt_spec .addVariable (Ask.modifyGet_eq _) m) (fun v s h => ?_)
      fun e s h => h.1
    obtain ⟨l, hok, hcomes⟩ := h
    cases hok
    exact ⟨hcomes, rfl⟩
  addRow name rhs m := by
    refine triple_mono (pass_attempt_spec .addRow (Ask.modifyGet_eq _) m) (fun r s h => ?_)
      fun e s h => h.1
    obtain ⟨l, hok, hcomes⟩ := h
    cases hok
    exact ⟨hcomes, rfl⟩
  addCoefficient r v a m :=
    triple_mono (pass_update_spec .addCoefficient (Ledger.addCoefficient_eq r v a) m)
      (fun _ _ => id) fun _ _ h => h.1
  submit assignment m := by
    refine triple_mono (pass_attempt_spec .submit (Ledger.submit_eq assignment) m)
      (fun accepted s h => ?_) fun e s h => ?_
    · obtain ⟨l, hok, hcomes⟩ := h
      exact ⟨l, hok, hcomes.ledger, nofun, hcomes.releaseRefused, hcomes.reliable⟩
    · exact ⟨h.1.ledger, nofun, h.1.releaseRefused, h.1.reliable⟩
  releaseVariable v m := pass_release_spec (.inl rfl) (Ledger.releaseVariable_eq v) m
  releaseRow r m := pass_release_spec (.inr rfl) (Ledger.releaseRow_eq r) m
  reoptimize m := by
    have hrun (l : Ledger α) : (pure () : Ask (Ledger α) Unit).run l = (.ok (), l) := rfl
    have hpass := pass_reading_spec (α := α) .reoptimize _ hrun
    change ⦃_⦄ (do
      pass .reoptimize (pure ())
      modifyGet solve : Ask (ScriptedMaster α) LpStatus) ⦃_⦄
    mvcgen [hpass]
    case vc1 s hs _ t _ hidles =>
      subst hs
      obtain ⟨settings, hledger, hscript, hcounts⟩ := exists_solve t
      refine ⟨settings, ?_, nofun, fun href => ?_, fun hreliable n => ?_⟩
      · exact hledger.trans (congrArg (Ledger.apply · settings) hidles.ledger)
      · obtain ⟨sort, n, hsort, hn, hle, hrefuses⟩ := hidles.releaseRefused href
        refine ⟨sort, n, hsort, hn, ?_, ?_⟩
        · rwa [count, hcounts]
        · rwa [hscript]
      · rw [hscript]
        exact hidles.reliable hreliable n
    case vc2 s hs _ t =>
      subst hs
      exact id
  not_releaseRefused m hreliable := by
    rintro ⟨sort, n, rfl | rfl, _, _, hrefuses⟩
    · rw [(hreliable n).1] at hrefuses
      cases hrefuses
    · rw [(hreliable n).2] at hrefuses
      cases hrefuses

end ScriptedMaster

end TourPricing
