import TransitionSystems.Subsets
import TransitionSystems.System.Reachability
import TransitionSystems.System.Classes
import TransitionSystems.Quotient
import TransitionSystems.Interleaving
import TransitionSystems.Fragment.Validity
import TransitionSystems.RabinAutomaton
import TransitionSystems.System.Drawing
import TransitionSystems.Workspace
import TransitionSystems.Catalogue
import TransitionSystems.Proofs.Reachability
import TransitionSystems.Proofs.Interleaving.Steps
import TransitionSystems.Proofs.Interleaving.Reachability
import TransitionSystems.Proofs.Interleaving.Shuffles
import TransitionSystems.Proofs.Interleaving.Quotient
import TransitionSystems.Proofs.Quotient.Simulation
import TransitionSystems.Proofs.Constructions
import TransitionSystems.Proofs.Lassos.Unrolling
import TransitionSystems.Proofs.Simulation
import TransitionSystems.Proofs.Interleaving.Associativity
import TransitionSystems.Proofs.Quotient.Composition
import TransitionSystems.Proofs.Invariants
import TransitionSystems.Proofs.SetEquality.Answers
import TransitionSystems.Proofs.SetEquality.Constructions
import TransitionSystems.Proofs.Determinism
import TransitionSystems.Proofs.SetEquality.Determinism
import TransitionSystems.Proofs.StoredMoves
import TransitionSystems.Proofs.Interleaving.Commutativity
import TransitionSystems.Proofs.Paths
import TransitionSystems.Proofs.Interleaving.Semantics
import TransitionSystems.Proofs.Drawing.Reading
import TransitionSystems.Proofs.Drawing.Picture
import TransitionSystems.Proofs.Violations.FirstHits
import TransitionSystems.Proofs.Violations.Partitions
import TransitionSystems.Proofs.Violations.Mixtures
import TransitionSystems.Proofs.Violations.Systems
import TransitionSystems.Proofs.BreadthFirst
import TransitionSystems.Proofs.Violations.Fragments
import TransitionSystems.Proofs.Interleaving.Classes
import TransitionSystems.Proofs.Interleaving.MoveCount
import TransitionSystems.Proofs.Drawing.Edges
import TransitionSystems.Proofs.RabinAutomata
import TransitionSystems.Proofs.Entries
import TransitionSystems.Proofs.Lassos.Traces
import TransitionSystems.Proofs.StateOrder
import TransitionSystems.Proofs.Termination
import TransitionSystems.Proofs.Subsets
