import Mathlib.Order.Defs.Unbundled

namespace TourPricing

variable {ε σ β γ : Type} {ρ : σ → σ → Prop}

theorem run_bind (c : ExceptT ε (StateM σ) β) (k : β → ExceptT ε (StateM σ) γ) (s : σ) :
    (c >>= k).run s = match c.run s with
      | (.ok b, t) => (k b).run t
      | (.error e, t) => (.error e, t) := by
  change ExceptT.bindCont k (c.run s).1 (c.run s).2 = _
  rcases c.run s with ⟨_ | _, t⟩ <;> rfl

theorem exists_of_run_bind_ok {c : ExceptT ε (StateM σ) β} {k : β → ExceptT ε (StateM σ) γ}
    {s u : σ} {b : γ} (h : (c >>= k).run s = (.ok b, u)) :
    ∃ a t, c.run s = (.ok a, t) ∧ (k a).run t = (.ok b, u) := by
  rw [run_bind] at h
  rcases hc : c.run s with ⟨e | a, t⟩
  · rw [hc] at h
    cases h
  · rw [hc] at h
    exact ⟨a, t, rfl, h⟩

theorem run_get_bind (k : σ → ExceptT ε (StateM σ) β) (s : σ) :
    (get >>= k).run s = (k s).run s :=
  rfl

theorem run_mapM_cons {f : β → ExceptT ε (StateM σ) γ} {b : β} {c : γ} {rest : List β}
    {cs : List γ} {s t u : σ} (hfirst : (f b).run s = (.ok c, t))
    (hrest : (rest.mapM f).run t = (.ok cs, u)) :
    ((b :: rest).mapM f).run s = (.ok (c :: cs), u) := by
  rw [List.mapM_cons, run_bind, hfirst]
  dsimp only
  rw [run_bind, hrest]
  rfl

theorem run_map (f : β → γ) (c : ExceptT ε (StateM σ) β) (s : σ) :
    (f <$> c).run s = match c.run s with
      | (.ok b, t) => (.ok (f b), t)
      | (.error e, t) => (.error e, t) := by
  rw [← bind_pure_comp, run_bind]
  rcases c.run s with ⟨_ | _, t⟩ <;> rfl

theorem run_tryCatch (c : ExceptT ε (StateM σ) β) (k : ε → ExceptT ε (StateM σ) β) (s : σ) :
    (tryCatch c k).run s = match c.run s with
      | (.ok b, t) => (.ok b, t)
      | (.error e, t) => (k e).run t := by
  have hstep : (tryCatch c k).run s = (match (c.run s).1 with
      | Except.ok b => (pure (Except.ok b) : StateM σ (Except ε β))
      | Except.error e => (k e).run) (c.run s).2 := rfl
  rw [hstep]
  rcases c.run s with ⟨_ | _, t⟩ <;> rfl

theorem run_discard (c : ExceptT ε (StateM σ) β) (s : σ) :
    (discard c).run s = match c.run s with
      | (.ok _, t) => (.ok (), t)
      | (.error e, t) => (.error e, t) :=
  run_bind c (fun _ => pure ()) s

theorem snd_run_discard (c : ExceptT ε (StateM σ) β) (s : σ) :
    ((discard c).run s).2 = (c.run s).2 := by
  rw [run_discard]
  rcases c.run s with ⟨_ | _, t⟩ <;> rfl

/-- The state that a computation leaves is related to the one that it starts from, also if it
fails. -/
def Preserves (ρ : σ → σ → Prop) (c : ExceptT ε (StateM σ) β) : Prop :=
  ∀ s, ρ s (c.run s).2

theorem preserves_modify {f : σ → σ} (h : ∀ s, ρ s (f s)) :
    Preserves ρ (modify f : ExceptT ε (StateM σ) PUnit) :=
  h

theorem Preserves.mono {ρ' : σ → σ → Prop} {c : ExceptT ε (StateM σ) β} (h : Preserves ρ c)
    (hρ : ∀ s t, ρ s t → ρ' s t) : Preserves ρ' c :=
  fun s => hρ s _ (h s)

variable [IsPreorder σ ρ]

theorem preserves_pure (b : β) : Preserves ρ (pure b : ExceptT ε (StateM σ) β) :=
  refl_of ρ

theorem preserves_throw (e : ε) : Preserves ρ (throw e : ExceptT ε (StateM σ) β) :=
  refl_of ρ

theorem preserves_throw_bind (e : ε) {k : β → ExceptT ε (StateM σ) γ} :
    Preserves ρ (throw e >>= k) :=
  refl_of ρ

theorem preserves_get : Preserves ρ (get : ExceptT ε (StateM σ) σ) :=
  refl_of ρ

theorem preserves_bind {c : ExceptT ε (StateM σ) β} {k : β → ExceptT ε (StateM σ) γ}
    (h : Preserves ρ c) (hk : ∀ b, Preserves ρ (k b)) : Preserves ρ (c >>= k) := by
  intro s
  have hc := h s
  rw [run_bind]
  rcases hrun : c.run s with ⟨e | b, t⟩ <;> rw [hrun] at hc
  · exact hc
  · exact trans_of ρ hc (hk b t)

theorem preserves_tryCatch {c : ExceptT ε (StateM σ) β} {k : ε → ExceptT ε (StateM σ) β}
    (h : Preserves ρ c) (hk : ∀ e, Preserves ρ (k e)) : Preserves ρ (tryCatch c k) := by
  intro s
  have hc := h s
  rw [run_tryCatch]
  rcases hrun : c.run s with ⟨e | b, t⟩ <;> rw [hrun] at hc
  · exact trans_of ρ hc (hk e t)
  · exact hc

theorem preserves_map (f : β → γ) {c : ExceptT ε (StateM σ) β} (h : Preserves ρ c) :
    Preserves ρ (f <$> c) := by
  rw [← bind_pure_comp]
  exact preserves_bind h fun b => preserves_pure (f b)

theorem preserves_discard {c : ExceptT ε (StateM σ) β} (h : Preserves ρ c) :
    Preserves ρ (discard c) :=
  preserves_bind h fun _ => preserves_pure ()

theorem preserves_forM {c : β → ExceptT ε (StateM σ) PUnit} {l : List β}
    (h : ∀ b ∈ l, Preserves ρ (c b)) : Preserves ρ (l.forM c) := by
  induction l with
  | nil => exact preserves_pure _
  | cons b rest ih =>
    apply preserves_bind (h b List.mem_cons_self)
    intro _
    exact ih fun a ha => h a (List.mem_cons_of_mem _ ha)

theorem preserves_mapM {c : β → ExceptT ε (StateM σ) γ} {l : List β}
    (h : ∀ b ∈ l, Preserves ρ (c b)) : Preserves ρ (l.mapM c) := by
  induction l with
  | nil =>
    rw [List.mapM_nil]
    exact preserves_pure _
  | cons b rest ih =>
    rw [List.mapM_cons]
    apply preserves_bind (h b List.mem_cons_self)
    intro _
    apply preserves_bind (ih fun a ha => h a (List.mem_cons_of_mem _ ha))
    exact fun _ => preserves_pure _

end TourPricing
