import TourPricing.Proofs.Expansion.Tracing
import TourPricing.Proofs.Manager.Frame

namespace TourPricing.Manager

variable {M α : Type} [Scalar α] [Master M α]

theorem columns_addTour {m : Manager M α} {vertices : List Nat} {p : Leg × VariableId}
    (hp : p ∈ (m.after (.addTour vertices)).columns) :
    p ∈ m.columns ∨ ∃ r, m.expansion.trace vertices = .ok r ∧ p.1 ∈ r.legs := by
  have hedits : Edits (fun _ _ => True)
      (fun leg => ∃ r, m.expansion.trace vertices = .ok r ∧ leg ∈ r.legs) m
      ((addTour vertices : Call M α Bool).run m).2 :=
    edits_addTour fun r hr leg hl => ⟨r, hr, hl⟩
  obtain ⟨added, hcolumns, hadded⟩ := hedits.exists_columns
  rw [after, Operation.perform, snd_run_discard, hcolumns] at hp
  rcases List.mem_append.1 hp with hp | hp
  · exact .inl hp
  · exact .inr (hadded p hp)

/-- Tours are traced along connected legs from the start. All of these legs are in the expansion if
and only if the tour does not list the source a second time. If it does not, the manager adds no
variable for a leg that the expansion does not contain. -/
theorem trace_inside_iff (m : Manager M α) (hN : m.expansion.network.WellFormed)
    (vertices : List Nat) :
    (∀ r t, (trace vertices : Call M α Route).run m = (.ok r, t) →
      r.isConnected = true ∧ r.legs.head?.map (·.tail) = some m.expansion.network.start ∧
      ((∀ leg ∈ r.legs, m.expansion.Contains leg) ↔
        m.expansion.network.source ∉ vertices.tail) ∧
      (m.expansion.network.source ∉ vertices.tail → m.expansion.Inside r)) ∧
    (m.expansion.network.source ∉ vertices.tail →
      ∀ p ∈ (m.after (.addTour vertices)).columns, p ∈ m.columns ∨ m.expansion.Contains p.1) := by
  constructor
  · intro r t hrun
    rw [run_trace] at hrun
    split at hrun
    · rename_i r' hr
      obtain ⟨hr', _⟩ := Prod.mk.inj hrun
      obtain rfl := Except.ok.inj hr'
      refine ⟨?_, ?_, ?_, ?_⟩
      · exact Expansion.isConnected_of_trace hN hr
      · exact Expansion.head?_of_trace hN hr
      · exact Expansion.forall_contains_iff_of_trace hN hr
      · exact Expansion.inside_of_trace hN hr
    · cases hrun
  · intro hs p hp
    rcases columns_addTour hp with hp | ⟨r, hr, hl⟩
    · exact .inl hp
    · exact .inr ((Expansion.inside_of_trace hN hr hs).contains _ hl)

def onTriangle : Manager (ScriptedMaster Rat) Rat :=
  (onScript 5 {} ⟨fun _ _ => false, fun _ => "", []⟩ Network.triangle.expand (.path {}) [0, 1, 2]
    false).after .init

theorem expansion_onTriangle : onTriangle.expansion = Network.triangle.expand :=
  expansion_after _ _

theorem trace_inside_triangle : onTriangle.expansion.network.WellFormed ∧
    onTriangle.expansion.network.source ∉ [1, 2] ∧
    ∀ p ∈ (onTriangle.after (.addTour [0, 1, 2])).columns,
      p ∈ onTriangle.columns ∨ onTriangle.expansion.Contains p.1 := by
  have hN : onTriangle.expansion.network.WellFormed := by
    rw [expansion_onTriangle]
    exact Network.wellFormed_of_ofArcs Network.ofArcs_triangle
  have hsource : onTriangle.expansion.network.source ∉ [1, 2] := by
    rw [expansion_onTriangle]
    decide
  exact ⟨hN, hsource, (trace_inside_iff onTriangle hN [0, 1, 2]).2 hsource⟩

/-- Back and forth first, and from the source once more: the third leg leaves it at time two. -/
theorem trace_leaves_source_again : Network.triangle.WellFormed ∧
    (∃ r, Network.triangle.expand.trace [0, 1, 0, 2] = .ok r ∧
      ∃ leg ∈ r.legs, ¬ Network.triangle.expand.Contains leg) ∧
    ∃ p ∈ (onTriangle.after (.addTour [0, 1, 0, 2])).columns,
      ¬ Network.triangle.expand.Contains p.1 := by
  refine ⟨Network.wellFormed_of_ofArcs Network.ofArcs_triangle, ⟨_, rfl, ?_⟩, ?_⟩
  · decide +kernel
  · decide +kernel

end TourPricing.Manager
