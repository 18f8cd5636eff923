import FlowAnalysis.Fixpoint.Evaluation
import FlowAnalysis.Graph.Contract
import FlowAnalysis.Traversal.Worklist

/-! # Iterating to a fixpoint

The contract is checked, the flows are completed, and all labels are queued.
Then label after label is taken from the worklist and evaluated, until none is
left or the bound on the evaluations strikes. The report of a run holds every
evaluation in order, the flows it left and how it ended.

A run without a bound need not end, so a run is given a number of steps that it
may take. A run that has come to its end is not changed by further steps.
-/
namespace FlowAnalysis
variable {S F R : Type}

def maxCount : Nat := 0xFFFFFFFFFFFFFFFF

structure Settings where
  /-- How many evaluations are allowed per node; zero allows any number. -/
  nodeLimit : Nat := 0
  order : VisitOrder := .reversePostOrder
  deriving DecidableEq, Repr

/-- The bound on the evaluations of a graph with so many nodes; zero is no bound. -/
def Settings.bound (s : Settings) (size : Nat) : Nat := min (s.nodeLimit * size) maxCount

inductive Ending where
  | settled
  | malformed (v : Violation)
  /-- The bound has struck while so many labels were queued. -/
  | gaveUp (queued : Nat)
  | absent (e : Absent)
  /-- The steps have been used up. -/
  | unfinished
  deriving DecidableEq, Repr

structure Report (F R : Type) where
  ending : Ending
  evaluations : Array (Evaluation F)
  flows : R

namespace Report

def mapFlows {T : Type} (f : R → T) (r : Report F R) : Report F T :=
  { ending := r.ending, evaluations := r.evaluations, flows := f r.flows }

def visits (r : Report F R) : List Label := r.evaluations.toList.map (·.label)

def merges (merge : F → F → F) (r : Report F R) : List (F × F) :=
  r.evaluations.toList.flatMap fun e => mergeCalls merge e.gathered

end Report

structure State (F : Type) where
  flows : Flows F
  worklist : Worklist
  evaluations : Array (Evaluation F) := #[]

namespace Problem
variable [BEq F]

/-- Takes a label and evaluates it. If the run ends here the state stays and the ending is told. -/
def step (p : Problem S F) (bound : Nat) (s : State F) : State F × Option Ending :=
  match s.worklist.pop? with
  | none => (s, some .settled)
  | some (l, rest) =>
    if bound ≠ 0 ∧ bound ≤ s.evaluations.size then (s, some (.gaveUp s.worklist.size))
    else
      match p.evaluate (s.evaluations.size + 1) s.flows l with
      | .error a => (s, some (.absent a))
      | .ok e =>
        match rest.extend e.awakened with
        | (_, some a) => (s, some (.absent a))
        | (worklist, none) =>
          ({ flows := e.commit s.flows, worklist, evaluations := s.evaluations.push e }, none)

def run (p : Problem S F) (bound : Nat) : Nat → State F → Report F (Flows F)
  | 0, s => ⟨.unfinished, s.evaluations, s.flows⟩
  | steps + 1, s =>
    match p.step bound s with
    | (s, none) => p.run bound steps s
    | (s, some ending) => ⟨ending, s.evaluations, s.flows⟩

def start (p : Problem S F) (order : VisitOrder) (flows : Flows F) : Except Absent (State F) := do
  let worklist ← Worklist.ofGraph order p.graph
  match worklist.extend p.graph.ids with
  | (_, some a) => .error a
  | (worklist, none) => .ok { flows, worklist }

/-- Solves the problem from given flows. A graph that breaks the contract leaves them as they are. -/
def solve (p : Problem S F) (settings : Settings) (steps : Nat) (flows : Flows F) :
    Report F (Flows F) :=
  match p.graph.violation? with
  | .error e => ⟨.absent e, #[], flows⟩
  | .ok (some v) => ⟨.malformed v, #[], flows⟩
  | .ok none =>
    let flows := flows.complete p.graph p.initial p.boundary
    match p.start settings.order flows with
    | .error e => ⟨.absent e, #[], flows⟩
    | .ok s => p.run (settings.bound p.graph.nodes.size) steps s

def analyze (p : Problem S F) (settings : Settings) (steps : Nat) : Report F (Flows F) :=
  p.solve settings steps p.seeded

end Problem

namespace PlainProblem
variable [BEq F]

def analyzeForward (p : PlainProblem S F) (settings : Settings) (steps : Nat) :
    Report F (PlainFlows F) :=
  (p.forward.analyze settings steps).mapFlows Flows.along

def analyzeBackward (p : PlainProblem S F) (settings : Settings) (steps : Nat) :
    Report F (PlainFlows F) :=
  (p.backward.analyze settings steps).mapFlows Flows.against

end PlainProblem
end FlowAnalysis
