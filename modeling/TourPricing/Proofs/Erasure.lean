import TourPricing.Proofs.Preserves

namespace TourPricing

variable {ε σ τ β γ : Type} {f : σ → τ}

/-- Both computations give the same result, and `f` takes the states of the one to those of the
other. -/
def Erases (f : σ → τ) (c : ExceptT ε (StateM σ) β) (d : ExceptT ε (StateM τ) β) : Prop :=
  ∀ s, d.run (f s) = ((c.run s).1, f (c.run s).2)

theorem erases_pure (b : β) :
    Erases f (pure b : ExceptT ε (StateM σ) β) (pure b : ExceptT ε (StateM τ) β) :=
  fun _ => rfl

theorem erases_throw (e : ε) :
    Erases f (throw e : ExceptT ε (StateM σ) β) (throw e : ExceptT ε (StateM τ) β) :=
  fun _ => rfl

theorem erases_throw_bind (e : ε) {k : β → ExceptT ε (StateM σ) γ}
    {k' : β → ExceptT ε (StateM τ) γ} : Erases f (throw e >>= k) (throw e >>= k') :=
  fun _ => rfl

theorem erases_ite {p : Prop} [Decidable p] {c c' : ExceptT ε (StateM σ) β}
    {d d' : ExceptT ε (StateM τ) β} (h : p → Erases f c d) (h' : ¬ p → Erases f c' d') :
    Erases f (if p then c else c') (if p then d else d') := by
  split
  · exact h ‹_›
  · exact h' ‹_›

theorem erases_modify {g : σ → σ} {g' : τ → τ} (h : ∀ s, g' (f s) = f (g s)) :
    Erases f (modify g : ExceptT ε (StateM σ) PUnit) (modify g' : ExceptT ε (StateM τ) PUnit) :=
  fun s => congrArg (Prod.mk (Except.ok PUnit.unit)) (h s)

theorem erases_bind {c : ExceptT ε (StateM σ) β} {d : ExceptT ε (StateM τ) β}
    {k : β → ExceptT ε (StateM σ) γ} {k' : β → ExceptT ε (StateM τ) γ} (h : Erases f c d)
    (hk : ∀ b, Erases f (k b) (k' b)) : Erases f (c >>= k) (d >>= k') := by
  intro s
  rw [run_bind, run_bind, h s]
  rcases c.run s with ⟨e | b, t⟩
  · rfl
  · exact hk b t

theorem erases_get_bind {k : σ → ExceptT ε (StateM σ) γ} {k' : τ → ExceptT ε (StateM τ) γ}
    (hk : ∀ s, Erases f (k s) (k' (f s))) : Erases f (get >>= k) (get >>= k') :=
  fun s => hk s s

theorem erases_tryCatch {c : ExceptT ε (StateM σ) β} {d : ExceptT ε (StateM τ) β}
    {k : ε → ExceptT ε (StateM σ) β} {k' : ε → ExceptT ε (StateM τ) β} (h : Erases f c d)
    (hk : ∀ e, Erases f (k e) (k' e)) : Erases f (tryCatch c k) (tryCatch d k') := by
  intro s
  rw [run_tryCatch, run_tryCatch, h s]
  rcases c.run s with ⟨e | b, t⟩
  · exact hk e t
  · rfl

theorem erases_map (g : β → γ) {c : ExceptT ε (StateM σ) β} {d : ExceptT ε (StateM τ) β}
    (h : Erases f c d) : Erases f (g <$> c) (g <$> d) := by
  rw [← bind_pure_comp, ← bind_pure_comp]
  exact erases_bind h fun b => erases_pure (g b)

theorem erases_discard {c : ExceptT ε (StateM σ) β} {d : ExceptT ε (StateM τ) β}
    (h : Erases f c d) : Erases f (discard c) (discard d) :=
  erases_bind h fun _ => erases_pure ()

theorem erases_forM {c : β → ExceptT ε (StateM σ) PUnit} {d : β → ExceptT ε (StateM τ) PUnit}
    (l : List β) (h : ∀ b, Erases f (c b) (d b)) : Erases f (l.forM c) (l.forM d) := by
  induction l with
  | nil => exact erases_pure _
  | cons b rest ih => exact erases_bind (h b) fun _ => ih

theorem erases_mapM {c : β → ExceptT ε (StateM σ) γ} {d : β → ExceptT ε (StateM τ) γ} (l : List β)
    (h : ∀ b, Erases f (c b) (d b)) : Erases f (l.mapM c) (l.mapM d) := by
  induction l with
  | nil =>
    rw [List.mapM_nil, List.mapM_nil]
    exact erases_pure _
  | cons b rest ih =>
    rw [List.mapM_cons, List.mapM_cons]
    exact erases_bind (h b) fun _ => erases_bind ih fun _ => erases_pure _

end TourPricing
