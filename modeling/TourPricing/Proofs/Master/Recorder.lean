import TourPricing.Proofs.Erasure
import TourPricing.Proofs.Master.Lawful

namespace TourPricing

open Std.Do

structure Recorder (M α : Type) where
  master : M
  offers : List (Offer α)

namespace Recorder

variable {M α β : Type}

def pass (request : Ask M β) (offered : M → List (Offer α) := fun _ => []) :
    Ask (Recorder M α) β :=
  ExceptT.mk fun r =>
    let (result, master) := request.run r.master
    (result, ⟨master, r.offers ++ offered r.master⟩)

theorem erases_pass (request : Ask M β) (offered : M → List (Offer α)) :
    Erases master (pass request offered) request :=
  fun _ => rfl

variable [HasLedger M α]

instance : HasLedger (Recorder M α) α where
  ledger r := HasLedger.ledger r.master
  offers r := r.offers
  releaseRefused r := HasLedger.releaseRefused r.master
  reliable r := HasLedger.reliable r.master

instance [Master M α] : Master (Recorder M α) α where
  duals kind := pass (Master.duals kind)
  objective := pass Master.objective
  forbidden r := Master.forbidden r.master
  window r := Master.window r.master
  linkingRow e := pass (Master.linkingRow e)
  addVariable name objective domain := pass (Master.addVariable name objective domain)
  addRow name rhs := pass (Master.addRow name rhs)
  addCoefficient r v a := pass (Master.addCoefficient r v a)
  submit assignment :=
    pass (Master.submit assignment) fun m => [⟨HasLedger.ledger m, assignment⟩]
  releaseVariable v := pass (Master.releaseVariable v)
  releaseRow r := pass (Master.releaseRow r)
  reoptimize := pass Master.reoptimize

omit [HasLedger M α] in
theorem pass_spec {request : Ask M β} {offered : M → List (Offer α)} {Q : M → β → M → Prop}
    {R : M → M → Prop}
    (h : ∀ m, ⦃fun s => ⌜s = m⌝⦄ request ⦃post⟨fun b s => ⌜Q m b s⌝, fun _ s => ⌜R m s⌝⟩⦄)
    {Q' : β → Recorder M α → Prop} {R' : Recorder M α → Prop} (r : Recorder M α)
    (hQ : ∀ b s, Q r.master b s → Q' b ⟨s, r.offers ++ offered r.master⟩)
    (hR : ∀ s, R r.master s → R' ⟨s, r.offers ++ offered r.master⟩) :
    ⦃fun t => ⌜t = r⌝⦄ pass request offered
    ⦃post⟨fun b t => ⌜Q' b t⌝, fun _ t => ⌜R' t⌝⟩⦄ := by
  rw [triple_iff]
  rintro t rfl
  have hrun := triple_iff.1 (h t.master) _ rfl
  have hpass : (pass request offered).run t = ((request.run t.master).1,
    ⟨(request.run t.master).2, t.offers ++ offered t.master⟩) := rfl
  rw [hpass]
  rcases hreq : request.run t.master with ⟨_ | _, s⟩ <;> rw [hreq] at hrun
  · exact hR _ hrun
  · exact hQ _ _ hrun

theorem comes {r : Recorder M α} {s : M} {l : Ledger α} {o : List (Offer α)}
    (h : Comes r.master s l o) (offered : List (Offer α)) :
    Comes r ⟨s, r.offers ++ offered⟩ l offered :=
  ⟨h.ledger, fun _ ho => List.mem_append.1 ho, h.releaseRefused, h.reliable⟩

instance [Scalar α] [Master M α] [LawfulMaster M] : LawfulMaster (Recorder M α) where
  duals kind r :=
    pass_spec (LawfulMaster.duals kind) r (fun _ _ h => comes h []) fun _ h => comes h []
  objective r := pass_spec LawfulMaster.objective r (fun _ _ h => comes h []) fun _ h => comes h []
  linkingRow e r := pass_spec (LawfulMaster.linkingRow e) r (fun _ _ h => ⟨comes h.1 [], h.2⟩)
    fun _ h => comes h []
  addVariable name objective domain r :=
    pass_spec (LawfulMaster.addVariable name objective domain) r
      (fun _ _ h => ⟨comes h.1 [], h.2⟩) fun _ h => comes h []
  addRow name rhs r := pass_spec (LawfulMaster.addRow name rhs) r
    (fun _ _ h => ⟨comes h.1 [], h.2⟩) fun _ h => comes h []
  addCoefficient row v a r := pass_spec (LawfulMaster.addCoefficient row v a) r
    (fun _ _ ⟨l, hl, hc⟩ => ⟨l, hl, comes hc []⟩) fun _ h => comes h []
  submit assignment r := pass_spec (LawfulMaster.submit assignment) r
    (fun _ _ ⟨l, hl, hc⟩ => ⟨l, hl, comes hc _⟩) fun _ h => comes h _
  releaseVariable v r := pass_spec (LawfulMaster.releaseVariable v) r
    (fun _ _ ⟨l, hl, hc⟩ => ⟨l, hl, comes hc []⟩) fun _ h => ⟨comes h.1 [], h.2⟩
  releaseRow row r := pass_spec (LawfulMaster.releaseRow row) r
    (fun _ _ ⟨l, hl, hc⟩ => ⟨l, hl, comes hc []⟩) fun _ h => ⟨comes h.1 [], h.2⟩
  reoptimize r := pass_spec LawfulMaster.reoptimize r
    (fun _ _ ⟨settings, hc⟩ => ⟨settings, comes hc []⟩) fun _ h => comes h []
  not_releaseRefused r := LawfulMaster.not_releaseRefused r.master

end Recorder

end TourPricing
