import TourPricing.Proofs.Lists
import TourPricing.Proofs.Manager.Frame

namespace TourPricing

variable {M α : Type}

abbrev Master.replying [I : Master M α] (reply : Ask M (Duals α)) : Master M α :=
  { I with
    duals := fun
      | .farkas => reply
      | .reduced => I.duals .reduced }

namespace Manager

def SameBut (m m' : Manager M α) : Prop :=
  ∃ s, m' = { m with master := s }

instance : IsPreorder (Manager M α) SameBut where
  refl m := ⟨m.master, rfl⟩
  trans := by
    rintro m _ _ ⟨s, rfl⟩ ⟨t, rfl⟩
    exact ⟨t, rfl⟩

/-- A manager that is not new any more does not become new again. -/
structure Advances (m m' : Manager M α) : Prop where
  expansion : m'.expansion = m.expansion
  initialTour : m'.initialTour = m.initialTour
  seeded : m'.seeded = m.seeded
  linking : m'.phase = .uninitialized → m.phase = .uninitialized ∧ m'.linking = m.linking

instance : IsPreorder (Manager M α) Advances where
  refl m := ⟨rfl, rfl, rfl, fun h => ⟨h, rfl⟩⟩
  trans m m' m'' h h' := by
    constructor
    case expansion => exact h'.expansion.trans h.expansion
    case initialTour => exact h'.initialTour.trans h.initialTour
    case seeded => exact h'.seeded.trans h.seeded
    case linking =>
      intro hphase
      obtain ⟨hphase, hlinking⟩ := h'.linking hphase
      exact ⟨(h.linking hphase).1, hlinking.trans (h.linking hphase).2⟩

theorem Advances.of_edits {m m' : Manager M α}
    (h : Edits (fun _ _ => True) (fun _ => True) m m') : Advances m m' :=
  ⟨h.keeps.expansion, h.keeps.initialTour, h.keeps.seeded,
    fun hphase => ⟨h.keeps.phase.symm.trans hphase, h.keeps.linking⟩⟩

theorem advances_ask {β : Type} {request : Ask M β} :
    Preserves Advances (ask request : Call M α β) :=
  fun _ => ⟨rfl, rfl, rfl, fun h => ⟨h, rfl⟩⟩

def CarriesTour (m : Manager M α) : Prop :=
  ∃ r, m.expansion.trace m.initialTour = .ok r ∧ ∀ leg ∈ r.legs, (m.variableOf? leg).isSome

theorem CarriesTour.reorder {m : Manager M α} {flow : List (Stop × RowId)}
    {columns : List (Leg × VariableId)} (h : m.CarriesTour) (hcolumns : columns.Perm m.columns) :
    ({ m with flow, columns } : Manager M α).CarriesTour := by
  obtain ⟨r, htrace, hlegs⟩ := h
  refine ⟨r, htrace, fun leg hl => ?_⟩
  have hleg := isSome_variableOf?_iff.1 (hlegs leg hl)
  exact isSome_variableOf?_iff.2 ((hcolumns.map (·.1)).mem_iff.2 hleg)

structure Made (M α : Type) where
  manager : Manager M α
  op : Operation

section

variable [Master M α]

def linkingRows (n : Nat) : Call M α (List RowId) :=
  (List.range n).mapM fun e => ask (Master.linkingRow e)

theorem run_init (m : Manager M α) :
    (init : Call M α Unit).run m = if m.phase = .uninitialized then
      match (linkingRows m.expansion.network.edgeCount : Call M α _).run m with
      | (.ok rows, u) => (.ok (), { u with linking := rows, phase := .active })
      | (.error e, u) => (.error e, u)
      else (.error (.invalidState m.phase), m) := by
  have hget (k : Manager M α → Call M α Unit) : (get >>= k).run m = (k m).run m := rfl
  rw [init, hget]
  by_cases hphase : m.phase = .uninitialized
  · rw [if_neg (not_not.2 hphase), if_pos hphase]
    dsimp only
    rw [run_bind, linkingRows]
    rcases ((List.range m.expansion.network.edgeCount).mapM
      fun e => ask (Master.linkingRow e) : Call M α _).run m with ⟨_ | _, _⟩ <;> rfl
  · rw [if_pos hphase, if_neg hphase]
    rfl

theorem sameBut_linkingRows (n : Nat) : Preserves SameBut (linkingRows n : Call M α _) := by
  apply preserves_mapM
  intro e _ m
  exact ⟨_, rfl⟩

theorem init_cases (m : Manager M α) :
    (m.phase ≠ .uninitialized ∧
      (init : Call M α Unit).run m = (.error (.invalidState m.phase), m)) ∨
    (m.phase = .uninitialized ∧
      ∃ e s, (init : Call M α Unit).run m = (.error e, { m with master := s })) ∨
    (m.phase = .uninitialized ∧ ∃ rows s, (init : Call M α Unit).run m =
      (.ok (), { m with master := s, linking := rows, phase := .active })) := by
  have hrows : SameBut m ((linkingRows m.expansion.network.edgeCount : Call M α _).run m).2 :=
    sameBut_linkingRows _ m
  rw [run_init]
  by_cases hphase : m.phase = .uninitialized
  · rw [if_pos hphase]
    rcases hrun : (linkingRows m.expansion.network.edgeCount : Call M α _).run m
      with ⟨e | rows, u⟩ <;> rw [hrun] at hrows <;> obtain ⟨s, rfl⟩ := hrows
    · exact .inr (.inl ⟨hphase, e, s, rfl⟩)
    · exact .inr (.inr ⟨hphase, rows, s, rfl⟩)
  · rw [if_neg hphase]
    exact .inl ⟨hphase, rfl⟩

theorem advances_init : Preserves Advances (init : Call M α Unit) := by
  apply preserves_init_of
  · exact fun e => advances_ask
  · exact fun m rows => ⟨rfl, rfl, rfl, nofun⟩

theorem advances_exit : Preserves Advances (exit : Call M α Unit) := by
  apply preserves_exit_of
  · exact fun v => advances_ask
  · exact fun r => advances_ask
  · exact fun m => ⟨rfl, rfl, rfl, fun h => ⟨h, rfl⟩⟩
  · exact fun m => ⟨rfl, rfl, rfl, fun h => ⟨h, rfl⟩⟩
  · exact fun m => ⟨rfl, rfl, rfl, nofun⟩

variable [Scalar α]

namespace Made

def Succeeds (c : Made M α) : Prop :=
  (c.op.perform.run c.manager).1 = .ok ()

def Inits (c : Made M α) : Prop :=
  c.op = .init ∧ c.Succeeds

/-- A call that puts the initial tour into the master. -/
def Injects (c : Made M α) : Prop :=
  c.op = .farkasPricing ∧ c.manager.seeded = false ∧ c.Succeeds

end Made

/-- What happens to a manager, with the calls that were made to it. The order of its tables is not
its choice, and its master is free to change between calls. -/
inductive History (m : Manager M α) : List (Made M α) → Manager M α → Prop
  | start : History m [] m
  | call {past : List (Made M α)} {m' : Manager M α} (op : Operation) : History m past m' →
    History m (past ++ [⟨m', op⟩]) (m'.after op)
  | reorder {past : List (Made M α)} {m' : Manager M α} {flow : List (Stop × RowId)}
    {columns : List (Leg × VariableId)} : History m past m' → flow.Perm m'.flow →
    columns.Perm m'.columns → History m past { m' with flow, columns }
  | master {past : List (Made M α)} {m' : Manager M α} (s : M) : History m past m' →
    History m past { m' with master := s }

theorem exists_advances (m : Manager M α) (op : Operation) : ∃ u seeded, Advances m u ∧
    ((op = .farkasPricing → m.seeded = true) → seeded = m.seeded) ∧
    m.after op = { u with seeded } := by
  by_cases hinit : op = .init
  · subst hinit
    exact ⟨_, _, advances_init m, fun _ => (advances_init m).seeded, rfl⟩
  · by_cases hexit : op = .exit
    · subst hexit
      exact ⟨_, _, advances_exit m, fun _ => (advances_exit m).seeded, rfl⟩
    · obtain ⟨u, seeded, hedits, hseeded, hop⟩ :=
        edits_after (R := fun _ _ : M => True) (fun _ => trivial) m hinit hexit
      have hadvances := Advances.of_edits hedits
      refine ⟨u.raise (m.reported op), seeded, ?_, ?_, hop⟩
      · exact ⟨hadvances.expansion, hadvances.initialTour, hadvances.seeded, hadvances.linking⟩
      · exact fun h => (hseeded h).trans hadvances.seeded

theorem perform_refused {m : Manager M α} {op : Operation} (hm : m.phase ≠ .active)
    (hinit : op ≠ .init) (hsolve : op ≠ .reoptimize) :
    (op.perform : Call M α Unit).run m = (.error (.invalidState m.phase), m) := by
  cases op with
  | init => exact absurd rfl hinit
  | reoptimize => exact absurd rfl hsolve
  | exit => rw [Operation.perform, exit, run_ensureActive_bind, if_neg hm]
  | materialize leg => rw [Operation.perform, run_discard, run_materialize, if_neg hm]
  | addRoute r =>
    rw [Operation.perform, run_discard, addRoute_eq, run_ensureActive_bind, if_neg hm]
  | addTour vertices => rw [Operation.perform, run_discard, run_addTour, if_neg hm]
  | farkasPricing => rw [Operation.perform, run_discard, run_farkasPricing, if_neg hm]
  | reducedCostPricing =>
    rw [Operation.perform, run_discard, run_reducedCostPricing, if_neg hm]

theorem run_seeding {m : Manager M α} (hm : m.seeded = false) :
    (Operation.farkasPricing.perform : Call M α Unit).run m = if m.phase = .active then
      match (addTour m.initialTour : Call M α Bool).run m with
      | (.ok _, u) => (.ok (), { u with seeded := true })
      | (.error e, u) => (.error e, u)
      else (.error (.invalidState m.phase), m) := by
  rw [Operation.perform, run_discard, run_farkasPricing, if_neg (Bool.eq_false_iff.1 hm)]
  by_cases hactive : m.phase = .active
  · rw [if_pos hactive, if_pos hactive]
    rcases (addTour m.initialTour : Call M α Bool).run m with ⟨_ | _, _⟩ <;> rfl
  · rw [if_neg hactive, if_neg hactive]

/-- Before the manager is seeded, nothing depends on the duals of an infeasible relaxation. -/
theorem perform_replying {m : Manager M α} (hm : m.seeded = false) (reply : Ask M (Duals α))
    (op : Operation) :
    (@Operation.perform M α _ (Master.replying reply) op).run m = op.perform.run m := by
  cases op with
  | farkasPricing =>
    exact (@run_seeding M α (Master.replying reply) _ m hm).trans (run_seeding hm).symm
  | _ => rfl

theorem CarriesTour.after {m : Manager M α} {op : Operation} (h : m.CarriesTour)
    (hexit : op ≠ .exit) : (m.after op).CarriesTour := by
  obtain ⟨r, htrace, hlegs⟩ := h
  by_cases hinit : op = .init
  · subst hinit
    rw [Manager.after, Operation.perform]
    rcases init_cases m with ⟨_, hrun⟩ | ⟨_, e, s, hrun⟩ | ⟨_, rows, s, hrun⟩ <;> rw [hrun] <;>
      exact ⟨r, htrace, hlegs⟩
  · obtain ⟨u, seeded, hedits, _, hop⟩ :=
      edits_after (R := fun _ _ : M => True) (fun _ => trivial) m hinit hexit
    rw [hop]
    refine ⟨r, ?_, fun leg hl => hedits.isSome_variableOf? (hlegs leg hl)⟩
    change u.expansion.trace u.initialTour = _
    rw [hedits.keeps.expansion, hedits.keeps.initialTour, htrace]

/-- The initial tour is put into the master, or the manager stays unseeded and may try again. -/
theorem seeding_cases {m : Manager M α} (hactive : m.phase = .active) (hm : m.seeded = false) :
    match (addTour m.initialTour : Call M α Bool).run m with
    | (.ok _, u) => Operation.farkasPricing.perform.run m = (.ok (), { u with seeded := true }) ∧
        ({ u with seeded := true } : Manager M α).CarriesTour
    | (.error e, u) => Operation.farkasPricing.perform.run m = (.error e, u) ∧
        u.phase = .active ∧ u.seeded = false := by
  have hedits : Edits (fun _ _ => True) (fun _ => True) m
      ((addTour m.initialTour : Call M α Bool).run m).2 :=
    edits_addTour fun _ _ _ _ => trivial
  rw [run_seeding hm, if_pos hactive]
  rcases hrun : (addTour m.initialTour : Call M α Bool).run m with ⟨e | accepted, u⟩ <;>
    rw [hrun] at hedits
  · exact ⟨rfl, hedits.keeps.phase.trans hactive, hedits.keeps.seeded.trans hm⟩
  · rw [run_addTour, if_pos hactive] at hrun
    refine ⟨rfl, ?_⟩
    cases htrace : m.expansion.trace m.initialTour with
    | error reason =>
      rw [htrace] at hrun
      cases hrun
    | ok r =>
      rw [htrace] at hrun
      have hlegs : ∀ leg ∈ r.legs, (u.variableOf? leg).isSome :=
        isSome_of_run_addRoute (fun _ _ : M => True) hrun
      refine ⟨r, ?_, hlegs⟩
      change u.expansion.trace u.initialTour = _
      rw [hedits.keeps.expansion, hedits.keeps.initialTour, htrace]

theorem seeding_outcome {m : Manager M α} (hm : m.seeded = false) :
    ((Made.mk m .farkasPricing).Succeeds ∧ (m.after .farkasPricing).seeded = true ∧
      (m.after .farkasPricing).CarriesTour) ∨
    (¬ (Made.mk m .farkasPricing).Succeeds ∧ (m.after .farkasPricing).seeded = false) := by
  rw [Made.Succeeds, after]
  dsimp only
  by_cases hactive : m.phase = .active
  · have hcases := seeding_cases hactive hm
    split at hcases
    · rw [hcases.1]
      exact .inl ⟨rfl, rfl, hcases.2⟩
    · right
      rw [hcases.1]
      refine ⟨?_, hcases.2.2⟩
      intro hok
      cases hok
  · right
    rw [run_seeding hm, if_neg hactive]
    refine ⟨?_, hm⟩
    intro hok
    cases hok

theorem seeded_after_iff (m : Manager M α) (op : Operation) :
    (m.after op).seeded = true ↔ m.seeded = true ∨ (Made.mk m op).Injects := by
  by_cases hwas : op = .farkasPricing → m.seeded = true
  · obtain ⟨u, seeded, _, hkept, hop⟩ := exists_advances m op
    rw [hop]
    change seeded = true ↔ _
    rw [hkept hwas]
    apply (or_iff_left _).symm
    rintro ⟨hfarkas, hm, _⟩
    exact absurd (hwas hfarkas) (Bool.eq_false_iff.1 hm)
  · obtain ⟨rfl, hm⟩ := Classical.not_imp.1 hwas
    have hunseeded := Bool.eq_false_iff.2 hm
    rw [or_iff_right hm]
    rcases seeding_outcome hunseeded with ⟨hsucceeds, hseeded, _⟩ | ⟨hfails, hseeded⟩
    · exact iff_of_true hseeded ⟨rfl, hunseeded, hsucceeds⟩
    · exact iff_of_false (Bool.eq_false_iff.1 hseeded) fun h => hfails h.2.2

namespace Made

variable {c : Made M α}

theorem Injects.carriesTour (h : c.Injects) : (c.manager.after c.op).CarriesTour := by
  obtain ⟨m, op⟩ := c
  obtain ⟨rfl, hm, hsucceeds⟩ := h
  rcases seeding_outcome hm with ⟨_, _, hcarries⟩ | ⟨hfails, _⟩
  · exact hcarries
  · exact absurd hsucceeds hfails

theorem Inits.phase_eq (h : c.Inits) :
    c.manager.phase = .uninitialized ∧ (c.manager.after c.op).phase = .active := by
  obtain ⟨m, op⟩ := c
  obtain ⟨rfl, hsucceeds⟩ := h
  rw [Succeeds] at hsucceeds
  rw [after]
  dsimp only [Operation.perform] at hsucceeds ⊢
  rcases init_cases m with ⟨_, hrun⟩ | ⟨_, e, s, hrun⟩ | ⟨hphase, rows, s, hrun⟩ <;>
    rw [hrun] at hsucceeds ⊢
  · cases hsucceeds
  · cases hsucceeds
  · exact ⟨hphase, rfl⟩

end Made

/-- What the state of a manager tells about the calls that were made. -/
structure Tells (m : Manager M α) (past : List (Made M α)) : Prop where
  idle : m.phase = .uninitialized → m.linking = []
  taken : ∀ c ∈ past, c.Inits → m.phase ≠ .uninitialized
  seeded : m.seeded = true ↔ ∃ c ∈ past, c.Injects

theorem Tells.after {m : Manager M α} {past : List (Made M α)} (h : m.Tells past)
    (op : Operation) : (m.after op).Tells (past ++ [⟨m, op⟩]) := by
  obtain ⟨u, seeded, hadvances, _, hop⟩ := exists_advances m op
  have hphase (hnew : (m.after op).phase = .uninitialized) :
      m.phase = .uninitialized ∧ (m.after op).linking = m.linking := by
    rw [hop] at hnew ⊢
    exact hadvances.linking hnew
  constructor
  case idle =>
    intro hnew
    obtain ⟨hold, hlinking⟩ := hphase hnew
    exact hlinking.trans (h.idle hold)
  case taken =>
    intro c hc hinits hnew
    rcases List.mem_append.1 hc with hc | hc
    · exact h.taken c hc hinits (hphase hnew).1
    · obtain rfl := List.mem_singleton.1 hc
      rw [hinits.phase_eq.2] at hnew
      cases hnew
  case seeded =>
    rw [seeded_after_iff, h.seeded]
    simp only [List.mem_append, List.mem_singleton, or_and_right, exists_or, exists_eq_left]

theorem tells_of_history {master : M} {expansion : Expansion} {pricer : Pricer α}
    {initialTour : List Nat} {relaxed : Bool} {past : List (Made M α)} {m : Manager M α}
    (h : History (create master expansion pricer initialTour relaxed) past m) : m.Tells past := by
  induction h with
  | start => exact ⟨fun _ => rfl, by simp, by simp [create]⟩
  | call op _ ih => exact ih.after op
  | reorder _ _ _ ih => exact ⟨ih.idle, ih.taken, ih.seeded⟩
  | master _ _ ih => exact ⟨ih.idle, ih.taken, ih.seeded⟩

namespace History

variable {start m : Manager M α} {past before later : List (Made M α)} {c : Made M α}

theorem pairwise {P : Made M α → Made M α → Prop}
    (hP : ∀ past m op, History start past m → ∀ c ∈ past, P c ⟨m, op⟩)
    (h : History start past m) : past.Pairwise P := by
  induction h with
  | start => exact .nil
  | call op hpast ih =>
    rw [List.pairwise_append]
    refine ⟨ih, List.pairwise_singleton _ _, fun c hc d hd => ?_⟩
    rw [List.mem_singleton.1 hd]
    exact hP _ _ op hpast c hc
  | reorder _ _ _ ih => exact ih
  | master _ _ ih => exact ih

theorem carriesTour (h : History start past m) (hpast : past = before ++ c :: later)
    (hc : c.Injects) (hlater : ∀ d ∈ later, d.op ≠ .exit) : m.CarriesTour := by
  induction h generalizing later with
  | start => exact absurd hpast (by simp)
  | call op _ ih =>
    rcases cases_of_concat_eq hpast with ⟨_, rfl, _⟩ | ⟨rest, rfl, hbefore⟩
    · exact hc.carriesTour
    · have hcarries := ih hbefore fun d hd => hlater d (List.mem_append_left _ hd)
      exact hcarries.after (hlater _ List.mem_concat_self)
  | reorder _ _ hcolumns ih => exact (ih hpast hlater).reorder hcolumns
  | master _ _ ih => exact ih hpast hlater

end History

/-- The life of a manager to which some calls were made. -/
structure LifeCycle (past : List (Made M α)) (m : Manager M α) : Prop where
  init_once : past.Pairwise fun c d => ¬ (c.Inits ∧ d.Inits)
  init_first : ∀ c ∈ past, c.Inits → c.manager.phase = .uninitialized
  init_refused : m.phase ≠ .uninitialized →
    (init : Call M α Unit).run m = (.error (.invalidState m.phase), m)
  init_retried : m.phase = .uninitialized →
    match (linkingRows m.expansion.network.edgeCount : Call M α _).run m with
    | (.ok rows, u) => (init : Call M α Unit).run m =
        (.ok (), { u with linking := rows, phase := .active })
    | (.error e, u) => (init : Call M α Unit).run m = (.error e, u) ∧
        u.phase = .uninitialized ∧ u.linking = [] ∧ ∃ s, u = { m with master := s }
  refused : m.phase ≠ .active → ∀ op : Operation, op ≠ .init → op ≠ .reoptimize →
    (op.perform : Call M α Unit).run m = (.error (.invalidState m.phase), m)
  /-- Until the initial tour is in the master, no call asks for the duals of an infeasible
  relaxation: whatever the master would reply, it goes the same way. -/
  unasked : (∀ c ∈ past, ¬ c.Injects) → ∀ (reply : Ask M (Duals α)) (op : Operation),
    (@Operation.perform M α _ (Master.replying reply) op).run m = op.perform.run m
  injects_once : past.Pairwise fun c d => ¬ (c.Injects ∧ d.Injects)
  carriesTour : ∀ before c later, past = before ++ c :: later → c.Injects →
    (∀ d ∈ later, d.op ≠ .exit) → m.CarriesTour
  seeding : m.phase = .active → (∀ c ∈ past, ¬ c.Injects) →
    match (addTour m.initialTour : Call M α Bool).run m with
    | (.ok _, u) => Operation.farkasPricing.perform.run m = (.ok (), { u with seeded := true })
    | (.error e, u) => Operation.farkasPricing.perform.run m = (.error e, u) ∧
        u.phase = .active ∧ u.seeded = false

/-- A manager lives through its phases once and is seeded once, whatever is called and whatever the
master refuses. -/
theorem lifeCycle_of_history {master : M} {expansion : Expansion} {pricer : Pricer α}
    {initialTour : List Nat} {relaxed : Bool} {past : List (Made M α)} {m : Manager M α}
    (h : History (create master expansion pricer initialTour relaxed) past m) :
    LifeCycle past m := by
  have htells := tells_of_history h
  have hunseeded (hpast : ∀ c ∈ past, ¬ c.Injects) : m.seeded = false := by
    apply Bool.eq_false_iff.2
    intro hseeded
    obtain ⟨c, hc, hinjects⟩ := htells.seeded.1 hseeded
    exact hpast c hc hinjects
  constructor
  case init_once =>
    apply h.pairwise
    rintro past m op hpast c hc ⟨hfirst, hsecond⟩
    exact (tells_of_history hpast).taken c hc hfirst hsecond.phase_eq.1
  case init_first => exact fun c _ hinits => hinits.phase_eq.1
  case init_refused =>
    intro hphase
    rw [run_init, if_neg hphase]
  case init_retried =>
    intro hphase
    have hrows : SameBut m ((linkingRows m.expansion.network.edgeCount : Call M α _).run m).2 :=
      sameBut_linkingRows _ m
    rw [run_init, if_pos hphase]
    rcases hrun : (linkingRows m.expansion.network.edgeCount : Call M α _).run m
      with ⟨e | rows, u⟩
    · rw [hrun] at hrows
      obtain ⟨s, rfl⟩ := hrows
      exact ⟨rfl, hphase, htells.idle hphase, s, rfl⟩
    · rfl
  case refused => exact fun hphase op => perform_refused hphase
  case unasked => exact fun hpast reply op => perform_replying (hunseeded hpast) reply op
  case injects_once =>
    apply h.pairwise
    rintro past m op hpast c hc ⟨hfirst, hsecond⟩
    have hseeded := (tells_of_history hpast).seeded.2 ⟨c, hc, hfirst⟩
    exact absurd hseeded (Bool.eq_false_iff.1 hsecond.2.1)
  case carriesTour => exact fun before c later => h.carriesTour
  case seeding =>
    intro hactive hpast
    have hcases := seeding_cases hactive (hunseeded hpast)
    split at hcases
    · exact hcases.1
    · exact hcases

def made (m : Manager M α) : List Operation → List (Made M α)
  | [] => []
  | op :: rest => ⟨m, op⟩ :: (m.after op).made rest

theorem History.of_operations {start m : Manager M α} {past : List (Made M α)}
    (h : History start past m) (operations : List Operation) :
    History start (past ++ m.made operations) (operations.foldl after m) := by
  induction operations generalizing past m with
  | nil =>
    rw [made, List.append_nil]
    exact h
  | cons op rest ih =>
    have hnext := ih (h.call op)
    rw [List.append_assoc] at hnext
    exact hnext

end

/-- A manager on the triangle. Its master refuses the third linking row that it is asked for and the
first tour that it is offered. -/
def balky : Manager (ScriptedMaster Rat) Rat :=
  onScript 5 {}
    ⟨fun sort n => (sort == .linkingRow && n == 3) || (sort == .submit && n == 1), fun _ => "", []⟩
    Network.triangle.expand (.path {}) [0, 1, 2] false

def retries : List Operation :=
  [.init, .init, .farkasPricing, .farkasPricing, .exit, .init]

theorem lifeCycle_balky :
    (balky.made retries).map (fun c => (c.op.perform.run c.manager).1.isOk) =
      [false, true, false, true, true, false] ∧
    LifeCycle (balky.made retries) (retries.foldl after balky) := by
  have hhistory : History balky (balky.made retries) (retries.foldl after balky) :=
    History.start.of_operations retries
  exact ⟨by decide +kernel, lifeCycle_of_history hhistory⟩

end Manager

end TourPricing
