import TransitionSystems.Catalogue
import TransitionSystems.Proofs.Quotient.Abstraction
import TransitionSystems.Proofs.Simulation

/-!
Quotients simulate their systems. If each state is taken for its block, the quotient of a valid
system admits all fragments of the system and reaches all that the system reaches; if the states of
a block look alike, the traces are those of the system, and what holds in all reachable blocks
holds in all reachable states (`quotient_simulates`).
-/
namespace TransitionSystems

/-- The state that stands for the block of `s`. A state of no block stands for itself. -/
def Partition.blockOf (Q : Partition) (s : State) : State := (Q.blockOf? s).getD s

namespace System

variable {S : System} {Q : Partition} {B : List State} {s : State}

theorem IsPartition.blockOf_eq (hQ : S.IsPartition Q) (hB : B ∈ Q) (hs : s ∈ B) :
    Q.blockOf s = .ofMembers B := by
  rw [Partition.blockOf, hQ.blockOf?_eq_some_iff.mpr ⟨B, hB, hs, rfl⟩]
  rfl

theorem IsPartition.simulatedBy_blockOf (hQ : S.IsPartition Q) (hS : S.Valid) :
    SimulatedBy Q.blockOf S (S.quotientParts Q) where
  initial := by
    intro s hs
    obtain ⟨B, hB, hsB⟩ := hQ.covered s (hS.initial s hs)
    rw [hQ.blockOf_eq hB hsB]
    exact mem_initial_quotientParts.mpr ⟨B, hB, ⟨s, hsB, hs⟩, rfl⟩
  actions := fun _ ha => ha
  step := by
    intro s a t ht
    -- Either end of a step has a block only because a valid system declares both.
    obtain ⟨B, hB, hsB⟩ := hQ.covered s (hS.source_of_step ht)
    obtain ⟨C, hC, htC⟩ := hQ.covered t (hS.target_of_step ht)
    rw [hQ.blockOf_eq hB hsB, hQ.blockOf_eq hC htC]
    exact (hQ.block_mem_successorsBy_iff hB hC).mpr ⟨hS.action_of_step ht, s, hsB, t, htC, ht⟩

theorem IsPartition.agrees_label_blockOf (hQ : S.IsPartition Q) (hsame : S.SameLabels Q)
    (hs : s ∈ S.states) :
    (S.label s).agrees ((S.quotientParts Q).label (Q.blockOf s)) = true := by
  obtain ⟨B, hB, hsB⟩ := hQ.covered s hs
  rw [hQ.blockOf_eq hB hsB, Label.agrees_iff]
  intro p
  exact (Label.agrees_iff.mp (hQ.agrees_label_quotientParts hsame hB hsB) p).symm

/-- What holds in all reachable blocks holds in all reachable states. -/
theorem IsPartition.mem_label_of_quotientParts (hQ : S.IsPartition Q) (hS : S.Valid)
    (hsame : S.SameLabels Q) {p : Proposition}
    (hp : ∀ b ∈ (S.quotientParts Q).reachableStates, p ∈ (S.quotientParts Q).label b)
    (hs : s ∈ S.reachableStates) : p ∈ S.label s := by
  have hreach := mem_reachableStates.mp hs
  have hblock := mem_reachableStates.mpr ((hQ.simulatedBy_blockOf hS).reachable hreach)
  have hlabel := hQ.agrees_label_blockOf hsame (hreach.declared hS)
  exact (Label.agrees_iff.mp hlabel p).mpr (hp _ hblock)

/-- **The quotient simulates the system.** -/
theorem quotient_simulates (hS : S.Valid) (hQ : S.IsPartition Q) :
    ∃ q, S.quotient Q = .ok q ∧ (∀ B ∈ Q, ∀ s ∈ B, Q.blockOf s = .ofMembers B) ∧
      (∀ φ : Fragment, S.Admits φ → q.Admits (φ.map Q.blockOf) ∧
        (φ.isInitial S = true → (φ.map Q.blockOf).isInitial q = true)) ∧
      (∀ s, S.isReachable s = true → q.isReachable (Q.blockOf s) = true) ∧
      (S.observationViolation? Q = none →
        (∀ φ : Fragment, (∀ s ∈ φ.visited, s ∈ S.states) →
          (φ.trace S).Agrees ((φ.map Q.blockOf).trace q)) ∧
        ∀ p, (∀ b ∈ q.reachableStates, p ∈ q.label b) →
          ∀ s ∈ S.reachableStates, p ∈ S.label s) := by
  have hsim := hQ.simulatedBy_blockOf hS
  refine ⟨_, quotient_eq_ok hQ fun s _ => hS.proposition s, fun B hB s hs => hQ.blockOf_eq hB hs,
    fun φ hφ => ⟨hsim.admits hφ, hsim.isInitial_map⟩, ?_, ?_⟩
  · intro s hs
    exact (isReachable_iff (hS.quotientParts hQ)).mpr
      (hsim.reachable ((isReachable_iff hS).mp hs))
  · intro hobs
    have hsame := (observationViolation?_eq_none_iff.mp hobs).2
    refine ⟨?_, ?_⟩
    · intro φ hφ
      exact agrees_trace_map fun s hs => hQ.agrees_label_blockOf hsame (hφ s hs)
    · intro p hp s hs
      exact hQ.mem_label_of_quotientParts hS hsame hp hs

/-- The drinks are not told apart. -/
def drinkBlocks : Partition :=
  [State.ofNames ["pay"], State.ofNames ["select"], State.ofNames ["beer", "soda"]]

/-- After a first coin, the machine sells soda for ever. -/
def sodaForEver : Lasso Execution :=
  ⟨⟨State.ofNames ["pay"], [⟨"insert_coin"⟩]⟩,
    ⟨State.ofNames ["select", "soda", "pay"], [.silent, ⟨"get_soda"⟩, ⟨"insert_coin"⟩]⟩⟩

theorem quotient_simulates_drinkBlocks :
    Catalogue.beverageVendingMachine.Valid ∧
      Catalogue.beverageVendingMachine.IsPartition drinkBlocks ∧
      ∃ q, Catalogue.beverageVendingMachine.quotient drinkBlocks = .ok q ∧
        q.Admits ((Fragment.executionLasso sodaForEver).map drinkBlocks.blockOf) ∧
        ((Fragment.executionLasso sodaForEver).map drinkBlocks.blockOf).isInitial q = true ∧
        q.isReachable (drinkBlocks.blockOf (.named "beer")) = true ∧
        ((Fragment.executionLasso sodaForEver).trace Catalogue.beverageVendingMachine).Agrees
          (((Fragment.executionLasso sodaForEver).map drinkBlocks.blockOf).trace q) := by
  have hS := Catalogue.beverageVendingMachine_valid
  have hobs : Catalogue.beverageVendingMachine.observationViolation? drinkBlocks = none := by
    decide
  have hQ := (observationViolation?_eq_none_iff.mp hobs).1
  obtain ⟨q, hq, _, hfragments, hreach, hlabels⟩ := quotient_simulates hS hQ
  obtain ⟨hadmits, hinitial⟩ := hfragments (.executionLasso sodaForEver) (by decide)
  exact ⟨hS, hQ, q, hq, hadmits, hinitial (by decide), hreach (.named "beer") (by decide),
    (hlabels hobs).1 (.executionLasso sodaForEver) (by decide)⟩

end System
end TransitionSystems
