import Mathlib

namespace TourPricing

open Std.Do

set_option mvcgen.warning false

variable {ε σ β γ : Type}

theorem triple_iff {c : ExceptT ε (StateM σ) β} {P : σ → Prop} {Q : β → σ → Prop}
    {R : ε → σ → Prop} :
    ⦃fun s => ⌜P s⌝⦄ c ⦃post⟨fun b s => ⌜Q b s⌝, fun e s => ⌜R e s⌝⟩⦄ ↔
      ∀ s, P s → match c.run s with
        | (.ok b, t) => Q b t
        | (.error e, t) => R e t := by
  have hwp (s : σ) : (wp⟦c⟧ post⟨fun b s => ⌜Q b s⌝, fun e s => ⌜R e s⌝⟩ s).down ↔
      match c.run s with
      | (.ok b, t) => Q b t
      | (.error e, t) => R e t := by
    simp only [WP.wp, PredTrans.apply_pushExcept, PredTrans.apply_pushArg, StateT.run, Id.run]
    rcases c.run s with ⟨_ | _, _⟩ <;> exact Iff.rfl
  constructor
  · exact fun h s hs => (hwp s).1 (h s hs)
  · exact fun h s hs => (hwp s).2 (h s hs)

theorem triple_mono {c : ExceptT ε (StateM σ) β} {P : σ → Prop} {Q Q' : β → σ → Prop}
    {R R' : ε → σ → Prop}
    (h : ⦃fun s => ⌜P s⌝⦄ c ⦃post⟨fun b s => ⌜Q b s⌝, fun e s => ⌜R e s⌝⟩⦄)
    (hQ : ∀ b s, Q b s → Q' b s) (hR : ∀ e s, R e s → R' e s) :
    ⦃fun s => ⌜P s⌝⦄ c ⦃post⟨fun b s => ⌜Q' b s⌝, fun e s => ⌜R' e s⌝⟩⦄ := by
  rw [triple_iff] at h ⊢
  intro s hs
  have hrun := h s hs
  split <;> rename_i hc <;> rw [hc] at hrun
  · exact hQ _ _ hrun
  · exact hR _ _ hrun

theorem triple_pre {c : ExceptT ε (StateM σ) β} {P P' : σ → Prop} {Q : β → σ → Prop}
    {R : ε → σ → Prop} (hP : ∀ s, P' s → P s)
    (h : ⦃fun s => ⌜P s⌝⦄ c ⦃post⟨fun b s => ⌜Q b s⌝, fun e s => ⌜R e s⌝⟩⦄) :
    ⦃fun s => ⌜P' s⌝⦄ c ⦃post⟨fun b s => ⌜Q b s⌝, fun e s => ⌜R e s⌝⟩⦄ := by
  rw [triple_iff] at h ⊢
  exact fun s hs => h s (hP s hs)

theorem triple_of_state {c : ExceptT ε (StateM σ) β} {P : σ → Prop} {Q : β → σ → Prop}
    {R : ε → σ → Prop} (h : ∀ s, P s →
      ⦃fun t => ⌜t = s⌝⦄ c ⦃post⟨fun b t => ⌜Q b t⌝, fun e t => ⌜R e t⌝⟩⦄) :
    ⦃fun s => ⌜P s⌝⦄ c ⦃post⟨fun b s => ⌜Q b s⌝, fun e s => ⌜R e s⌝⟩⦄ := by
  rw [triple_iff]
  exact fun s hs => triple_iff.1 (h s hs) s rfl

theorem discard_spec {c : ExceptT ε (StateM σ) β} {P Q : σ → Prop} {R : ε → σ → Prop}
    (h : ⦃fun s => ⌜P s⌝⦄ c ⦃post⟨fun _ s => ⌜Q s⌝, fun e s => ⌜R e s⌝⟩⦄) :
    ⦃fun s => ⌜P s⌝⦄ discard c ⦃post⟨fun _ s => ⌜Q s⌝, fun e s => ⌜R e s⌝⟩⦄ := by
  have hdiscard : discard c = c >>= fun _ => pure () := rfl
  rw [hdiscard]
  mvcgen [h]

theorem forM_spec {I : List γ → σ → Prop} {R : ε → σ → Prop} {f : γ → ExceptT ε (StateM σ) Unit}
    (step : ∀ a rest, ⦃fun s => ⌜I (a :: rest) s⌝⦄ f a
      ⦃post⟨fun _ s => ⌜I rest s⌝, fun e s => ⌜R e s⌝⟩⦄) (l : List γ) :
    ⦃fun s => ⌜I l s⌝⦄ l.forM f ⦃post⟨fun _ s => ⌜I [] s⌝, fun e s => ⌜R e s⌝⟩⦄ := by
  induction l with
  | nil =>
    rw [List.forM_eq_forM, List.forM_nil]
    mvcgen
  | cons a rest ih =>
    rw [List.forM_eq_forM, List.forM_cons]
    have hfirst := step a rest
    mvcgen [hfirst, ih]

/-- What each element of a list comes to stays true while the rest of the list is mapped. -/
theorem mapM_spec {G : σ → σ → Prop} {T : γ → β → σ → Prop} {f : γ → ExceptT ε (StateM σ) β}
    (refl : ∀ s, G s s) (trans : ∀ s t u, G s t → G t u → G s u)
    (mono : ∀ a b s t, T a b s → G s t → T a b t) {l : List γ}
    (step : ∀ a ∈ l, ∀ s, ⦃fun t => ⌜t = s⌝⦄ f a
      ⦃post⟨fun b t => ⌜G s t ∧ T a b t⌝, fun _ t => ⌜G s t⌝⟩⦄) (s : σ) :
    ⦃fun t => ⌜t = s⌝⦄ l.mapM f
      ⦃post⟨fun bs t => ⌜G s t ∧ List.Forall₂ (T · · t) l bs⌝, fun _ t => ⌜G s t⌝⟩⦄ := by
  induction l generalizing s with
  | nil =>
    rw [List.mapM_nil]
    mvcgen
    case vc1 t ht =>
      subst ht
      exact ⟨refl _, .nil⟩
  | cons a rest ih =>
    rw [List.mapM_cons]
    have hfirst := step a List.mem_cons_self
    have hrest := ih fun b hb => step b (List.mem_cons_of_mem _ hb)
    mvcgen [hfirst, hrest]
    case vc1 t ht b u hu bs w hw =>
      subst ht
      exact ⟨trans _ _ _ hu.1 hw.1, .cons (mono _ _ _ _ hu.2 hw.1) hw.2⟩
    case vc2 t ht b u hu e w =>
      subst ht
      exact trans _ _ _ hu.1
    case vc3 t ht e u =>
      subst ht
      exact id

end TourPricing
