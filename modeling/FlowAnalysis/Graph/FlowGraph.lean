import FlowAnalysis.Graph.Node

/-! # A graph as an analysis is given it

The nodes come as a map, beside a list of the labels to analyse and a list of
entries. Nothing is assumed of the three: the contract says what has to hold.
-/
namespace FlowAnalysis

structure FlowGraph (S : Type) where
  entries : List Label
  ids : List Label
  nodes : LabelMap (Node S)

namespace FlowGraph
variable {S : Type}

/-- The labels to analyse. How they are listed does not matter. -/
def domain (g : FlowGraph S) : LabelSet := .ofList g.ids

theorem mem_domain {g : FlowGraph S} {l : Label} : l ∈ g.domain ↔ l ∈ g.ids := by
  simp [domain, Std.ExtTreeSet.mem_ofList]

/-- The successors of a label in both classes; a label without a node has none. -/
def targets (g : FlowGraph S) (l : Label) : List Label :=
  match g.nodes[l]? with
  | some n => n.targets
  | none => []

/-- The label has a node, and no edge leads there. -/
def isSource (g : FlowGraph S) (l : Label) : Bool :=
  match g.nodes[l]? with
  | some n => n.sources.isEmpty
  | none => false

end FlowGraph
end FlowAnalysis
