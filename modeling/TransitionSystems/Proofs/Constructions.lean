import TransitionSystems.Proofs.Interleaving.Quotient
import TransitionSystems.Proofs.Quotient.Abstraction
import TransitionSystems.Proofs.StateOrder

/-!
Which interleavings and quotients exist. Two systems have an interleaving if and only if both are
valid, and a partition gives a quotient if and only if the labels of the declared states use
declared propositions only; otherwise the fault is that of the operands, of the partition or of a
label (`construction_outcomes`). What exists is valid, so that constructions can be nested as one
likes (`Construction.Sound.exists_build`).

Neither an interleaving nor a quotient makes a block that is not canonical. So in whatever is put
together from systems with canonical states, blocks are sets of states
(`Construction.FromCanonical.block_eq_block_iff`).
-/
namespace TransitionSystems

/-- How a system is put together from given ones. -/
inductive Construction
  | given (S : System)
  | interleaving (left right : Construction)
  | quotient (base : Construction) (Q : Partition)

namespace Construction

def build : Construction → Except Fault System
  | given S => .ok S
  | interleaving c d => do
    let S ← c.build
    let T ← d.build
    S.interleave T
  | quotient c Q => do
    let S ← c.build
    (S.quotient Q).mapError .violation

/-- The given systems are valid, and each partition fits the system that it is meant for. -/
def Sound : Construction → Prop
  | given S => S.Valid
  | interleaving c d => c.Sound ∧ d.Sound
  | quotient c Q => c.Sound ∧ ∀ S, c.build = .ok S → S.IsPartition Q

end Construction

namespace System

/-- All blocks in the declared states are canonical. -/
def CanonicalStates (S : System) : Prop := ∀ s ∈ S.states, s.Canonical

variable {S T P q : System} {Q : Partition} {v : Violation}

/-! ## Interleavings -/

theorem interleave_eq_error (h : ¬(S.Valid ∧ T.Valid)) :
    S.interleave T =
      .error (.invalidOperands (S.violation?.map .violation) (T.violation?.map .violation)) := by
  rw [← violation?_eq_none_iff, ← violation?_eq_none_iff] at h
  unfold interleave
  split
  · rename_i hS hT
    exact absurd ⟨hS, hT⟩ h
  · rfl

theorem of_interleave_eq_ok (h : S.interleave T = .ok P) :
    S.Valid ∧ T.Valid ∧ P = S.interleavingParts T := by
  by_cases hvalid : S.Valid ∧ T.Valid
  · obtain ⟨hS, hT⟩ := hvalid
    rw [interleave_eq_ok hS hT] at h
    exact ⟨hS, hT, (Except.ok.inj h).symm⟩
  · rw [interleave_eq_error hvalid] at h
    cases h

theorem exists_interleave_iff : (∃ P, S.interleave T = .ok P) ↔ S.Valid ∧ T.Valid := by
  constructor
  · rintro ⟨P, h⟩
    obtain ⟨hS, hT, _⟩ := of_interleave_eq_ok h
    exact ⟨hS, hT⟩
  · rintro ⟨hS, hT⟩
    exact ⟨_, interleave_eq_ok hS hT⟩

theorem valid_of_interleave_eq_ok (h : S.interleave T = .ok P) : P.Valid := by
  obtain ⟨hS, hT, rfl⟩ := of_interleave_eq_ok h
  exact hS.interleavingParts hT

/-! ## Quotients -/

theorem IsPartition.exists_quotient_iff (hQ : S.IsPartition Q) :
    (∃ q, S.quotient Q = .ok q) ↔ ∀ s ∈ S.states, ∀ p ∈ S.label s, p ∈ S.propositions := by
  rw [← hQ.valid_quotientParts_iff]
  constructor
  · rintro ⟨q, h⟩
    exact (of_quotient_eq_ok h).2.1
  · intro hvalid
    exact ⟨_, quotient_eq_ok hQ (hQ.valid_quotientParts_iff.mp hvalid)⟩

theorem valid_of_quotient_eq_ok (h : S.quotient Q = .ok q) : q.Valid := by
  obtain ⟨_, hvalid, rfl⟩ := of_quotient_eq_ok h
  exact hvalid

/-- With a partition, only a proposition in the label of some state can be at fault. -/
theorem IsPartition.of_quotient_eq_error (hQ : S.IsPartition Q) (h : S.quotient Q = .error v) :
    ∃ B ∈ Q, ∃ s ∈ B, ∃ p ∈ S.label s, p ∉ S.propositions ∧
      v = .undeclaredProposition (.ofMembers B) p := by
  rw [quotient_eq_validate hQ, validate_eq_error_iff, hQ.violation?_quotientParts] at h
  obtain ⟨u, hu, p, hp, hundeclared, rfl⟩ :=
    of_labelViolation?_eq_some (fun _ => mem_states_of_mem_labels_quotientParts) h
  obtain ⟨B, hB, rfl⟩ := mem_states_quotientParts.mp hu
  obtain ⟨s, hs, hp⟩ := (hQ.mem_label_quotientParts hB).mp hp
  exact ⟨B, hB, s, hs, p, hp, hundeclared, rfl⟩

/-! ## Canonical states -/

theorem CanonicalStates.interleavingParts (hS : S.CanonicalStates) (hT : T.CanonicalStates) :
    (S.interleavingParts T).CanonicalStates := by
  intro u hu
  obtain ⟨s, hs, t, ht, rfl⟩ := mem_states_interleavingParts.mp hu
  exact .product (hS s hs) (hT t ht)

theorem CanonicalStates.quotientParts (hS : S.CanonicalStates) (hQ : S.IsPartition Q) :
    (S.quotientParts Q).CanonicalStates := by
  intro u hu
  obtain ⟨B, hB, rfl⟩ := mem_states_quotientParts.mp hu
  exact .ofMembers fun s hs => hS s (hQ.declared B hB s hs)

end System

/-! ## Nesting -/

open TransitionSystems.System

theorem Construction.build_interleaving {c d : Construction} {S T : System}
    (hc : c.build = .ok S) (hd : d.build = .ok T) :
    (interleaving c d).build = S.interleave T := by
  rw [build, hc, hd]
  rfl

theorem Construction.build_quotient {c : Construction} {S : System} (hc : c.build = .ok S)
    (Q : Partition) : (quotient c Q).build = (S.quotient Q).mapError .violation := by
  rw [build, hc]
  rfl

theorem Construction.Sound.exists_build {c : Construction} (h : c.Sound) :
    ∃ S, c.build = .ok S ∧ S.Valid := by
  induction c with
  | given S => exact ⟨S, rfl, h⟩
  | interleaving c d ihc ihd =>
    obtain ⟨S, hc, hS⟩ := ihc h.1
    obtain ⟨T, hd, hT⟩ := ihd h.2
    refine ⟨S.interleavingParts T, ?_, hS.interleavingParts hT⟩
    rw [build_interleaving hc hd, interleave_eq_ok hS hT]
  | quotient c Q ih =>
    -- The base is valid, so its labels cannot be what makes the quotient fail.
    obtain ⟨S, hc, hS⟩ := ih h.1
    have hQ : S.IsPartition Q := h.2 S hc
    refine ⟨S.quotientParts Q, ?_, hS.quotientParts hQ⟩
    rw [build_quotient hc, quotient_eq_ok hQ fun s _ => hS.proposition s]
    rfl

theorem of_bind_eq_ok {ε α β : Type} {x : Except ε α} {f : α → Except ε β} {b : β}
    (h : x >>= f = .ok b) : ∃ a, x = .ok a ∧ f a = .ok b := by
  cases x with
  | error e => cases h
  | ok a => exact ⟨a, rfl, h⟩

theorem of_mapError_eq_ok {ε δ α : Type} {x : Except ε α} {f : ε → δ} {a : α}
    (h : x.mapError f = .ok a) : x = .ok a := by
  cases x with
  | error e => cases h
  | ok a' =>
    cases h
    rfl

theorem Construction.of_build_interleaving {c d : Construction} {P : System}
    (h : (interleaving c d).build = .ok P) :
    ∃ S T, c.build = .ok S ∧ d.build = .ok T ∧ S.interleave T = .ok P := by
  obtain ⟨S, hS, h⟩ := of_bind_eq_ok h
  obtain ⟨T, hT, hP⟩ := of_bind_eq_ok h
  exact ⟨S, T, hS, hT, hP⟩

theorem Construction.of_build_quotient {c : Construction} {Q : Partition} {q : System}
    (h : (quotient c Q).build = .ok q) : ∃ S, c.build = .ok S ∧ S.quotient Q = .ok q := by
  obtain ⟨S, hS, h⟩ := of_bind_eq_ok h
  exact ⟨S, hS, of_mapError_eq_ok h⟩

/-- The given systems have canonical states. -/
def Construction.FromCanonical : Construction → Prop
  | given S => S.CanonicalStates
  | interleaving c d => c.FromCanonical ∧ d.FromCanonical
  | quotient c _ => c.FromCanonical

theorem Construction.FromCanonical.canonicalStates {c : Construction} {S : System}
    (h : c.FromCanonical) (hS : c.build = .ok S) : S.CanonicalStates := by
  induction c generalizing S with
  | given S =>
    cases hS
    exact h
  | interleaving c d ihc ihd =>
    obtain ⟨A, B, hA, hB, hAB⟩ := of_build_interleaving hS
    obtain ⟨_, _, rfl⟩ := of_interleave_eq_ok hAB
    exact (ihc h.1 hA).interleavingParts (ihd h.2 hB)
  | quotient c Q ih =>
    obtain ⟨A, hA, hq⟩ := of_build_quotient hS
    obtain ⟨hQ, _, rfl⟩ := of_quotient_eq_ok hq
    exact (ih h hA).quotientParts hQ

/-- However constructions are nested, no set of states is listed in two ways. -/
theorem Construction.FromCanonical.block_eq_block_iff {c : Construction} {S : System}
    (h : c.FromCanonical) (hS : c.build = .ok S) {ms ns : List State}
    (hm : .block ms ∈ S.states) (hn : .block ns ∈ S.states) :
    State.block ms = .block ns ↔ ∀ s, s ∈ ms ↔ s ∈ ns :=
  State.block_eq_block_iff (h.canonicalStates hS _ hm) (h.canonicalStates hS _ hn)

/-- **Which constructions succeed, and how the others fail.** All that succeed give valid
systems. -/
theorem construction_outcomes :
    (∀ S T : System,
      ((∃ P, S.interleave T = .ok P) ↔ S.Valid ∧ T.Valid) ∧
      (¬(S.Valid ∧ T.Valid) → S.interleave T =
        .error (.invalidOperands (S.violation?.map .violation) (T.violation?.map .violation))) ∧
      ∀ P, S.interleave T = .ok P → P.Valid) ∧
    (∀ (S : System) (Q : Partition),
      (∀ v, S.partitionViolation? Q = some v → S.quotient Q = .error v) ∧
      (S.partitionViolation? Q = none →
        ((∃ q, S.quotient Q = .ok q) ↔ ∀ s ∈ S.states, ∀ p ∈ S.label s, p ∈ S.propositions) ∧
        ∀ v, S.quotient Q = .error v → ∃ B ∈ Q, ∃ s ∈ B, ∃ p ∈ S.label s,
          p ∉ S.propositions ∧ v = .undeclaredProposition (.ofMembers B) p) ∧
      ∀ q, S.quotient Q = .ok q → q.Valid) ∧
    ∀ c : Construction, c.Sound → ∃ S, c.build = .ok S ∧ S.Valid := by
  refine ⟨?_, ?_, fun c hc => hc.exists_build⟩
  · intro S T
    exact ⟨exists_interleave_iff, interleave_eq_error, fun P => valid_of_interleave_eq_ok⟩
  · intro S Q
    refine ⟨fun v hv => by rw [System.quotient, hv], ?_, fun q => valid_of_quotient_eq_ok⟩
    intro hnone
    have hQ := partitionViolation?_eq_none_iff.mp hnone
    exact ⟨hQ.exists_quotient_iff, fun v => hQ.of_quotient_eq_error⟩

/-- A quotient of a product, side by side with a third system. -/
def nestedChains : Construction :=
  .interleaving
    (.quotient (.interleaving (.given Catalogue.simpleChain) (.given Catalogue.simpleChain))
      (chainBlocks.boxes chainBlocks))
    (.given Catalogue.beverageVendingMachine)

theorem construction_outcomes_nestedChains :
    looseEnds.interleave Catalogue.simpleChain =
        .error (.invalidOperands (some (.violation (.undeclaredInitial (.named "9")))) none) ∧
      nestedChains.Sound ∧ ∃ S, nestedChains.build = .ok S ∧ S.Valid := by
  have hchain := Catalogue.simpleChain_valid
  have hblocks : Catalogue.simpleChain.IsPartition chainBlocks :=
    partitionViolation?_eq_none_iff.mp (by decide)
  have hloose : looseEnds.violation? = some (.undeclaredInitial (.named "9")) := by decide
  have herror := (construction_outcomes.1 looseEnds Catalogue.simpleChain).2.1 (by decide)
  rw [hloose, violation?_eq_none_iff.mpr hchain] at herror
  have hsound : nestedChains.Sound := by
    refine ⟨⟨⟨hchain, hchain⟩, ?_⟩, Catalogue.beverageVendingMachine_valid⟩
    intro S hS
    rw [Construction.build_interleaving rfl rfl] at hS
    obtain ⟨_, _, rfl⟩ := of_interleave_eq_ok hS
    exact hblocks.boxes hblocks
  exact ⟨herror, hsound, construction_outcomes.2.2 nestedChains hsound⟩

/-- The nested chains are put together from systems whose states are plain names. -/
theorem nestedChains_fromCanonical : nestedChains.FromCanonical :=
  ⟨⟨fun _ => State.canonical_of_mem_ofNames, fun _ => State.canonical_of_mem_ofNames⟩,
    fun _ => State.canonical_of_mem_ofNames⟩

end TransitionSystems
