import FlowAnalysis.Graph.Branching
import FlowAnalysis.Graph.Plain
import FlowAnalysis.Graph.Drawing
import FlowAnalysis.Graph.Contract
import FlowAnalysis.Traversal.Worklist
import FlowAnalysis.Lattice.Flat
import FlowAnalysis.Lattice.Dual
import FlowAnalysis.Lattice.FiniteSet
import FlowAnalysis.Lattice.Pointwise
import FlowAnalysis.Fixpoint.Failure
import FlowAnalysis.Fixpoint.Log
import FlowAnalysis.Proofs.Lookup
import FlowAnalysis.Proofs.Contract
import FlowAnalysis.Proofs.Queue
import FlowAnalysis.Proofs.Search
import FlowAnalysis.Proofs.Slots
import FlowAnalysis.Proofs.Execution
import FlowAnalysis.Proofs.Equations
import FlowAnalysis.Proofs.Order
import FlowAnalysis.Proofs.LeastSolution
import FlowAnalysis.Proofs.Incremental
import FlowAnalysis.Proofs.Termination
import FlowAnalysis.Proofs.Paths
import FlowAnalysis.Proofs.Exactness
import FlowAnalysis.Proofs.Building
import FlowAnalysis.Proofs.Classification
import FlowAnalysis.Proofs.Reversal
import FlowAnalysis.Proofs.Violations
import FlowAnalysis.Proofs.Endings
import FlowAnalysis.Proofs.Freshness
import FlowAnalysis.Proofs.Forest
import FlowAnalysis.Proofs.Bounds
import FlowAnalysis.Proofs.Nesting
import FlowAnalysis.Proofs.FactMaps
import FlowAnalysis.Proofs.Walks
import FlowAnalysis.Proofs.PlainRuns
import FlowAnalysis.Proofs.Dominance
import FlowAnalysis.Proofs.Simulation
import FlowAnalysis.Proofs.Relabelling
import FlowAnalysis.Proofs.Locality
import FlowAnalysis.Proofs.Acceptance
import FlowAnalysis.Proofs.Liveness
import FlowAnalysis.Proofs.Lockstep
import FlowAnalysis.Proofs.Recursion
import FlowAnalysis.Proofs.RankedSet
import FlowAnalysis.Proofs.Requests
import FlowAnalysis.Proofs.Revisits
import FlowAnalysis.Proofs.Sweep
import FlowAnalysis.Proofs.Solutions
import FlowAnalysis.Proofs.Acyclic
import FlowAnalysis.Proofs.Uniqueness
import FlowAnalysis.Proofs.SinglePass
import FlowAnalysis.Proofs.Seeding
import FlowAnalysis.Proofs.Outcomes
import FlowAnalysis.Proofs.Listings
import FlowAnalysis.Proofs.NestedMaps
import FlowAnalysis.Proofs.Mirroring
import FlowAnalysis.Proofs.Leaders
import FlowAnalysis.Proofs.Incidence
import FlowAnalysis.Proofs.Legibility
import FlowAnalysis.Proofs.Folding
