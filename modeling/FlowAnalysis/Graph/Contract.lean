import FlowAnalysis.Graph.FlowGraph

/-! # The contract between a graph and an analysis

The listed labels are the labels of the nodes; every node is stored under its
own label; the entries and the ends of all edges are listed; and every edge is
written down at both of its ends under the same class. The conditions are
checked in this order and the first violation is reported.

The last condition looks up the other end of each edge. That look-up can fail,
and its failure is kept apart from a violation; the earlier conditions rule it
out.
-/
namespace FlowAnalysis

inductive Violation where
  | danglingEdge (node target : Label)
  | domainMismatch (label : Label)
  | labelMismatch (key label : Label)
  | unknownEntry (label : Label)
  | asymmetricEdge (source target : Label) (cls : EdgeClass)
  deriving DecidableEq, Repr

def Violation.message : Violation → String
  | .danglingEdge n t =>
    "node " ++ toString n ++ " has an edge to " ++ toString t ++ ", which is not part of the graph"
  | .domainMismatch l =>
    "label " ++ toString l ++ " is not present in both the id list and the node map"
  | .labelMismatch k l => "node stored under key " ++ toString k ++ " reports label " ++ toString l
  | .unknownEntry l => "entry label " ++ toString l ++ " is not part of the graph"
  | .asymmetricEdge s t c =>
    c.name ++ " edge " ++ toString s ++ " -> " ++ toString t ++ " is not listed on both ends"

inductive EdgeEnd where
  | source
  | target
  deriving DecidableEq, Repr

/-- An edge as one of its ends lists it. -/
structure Mention where
  source : Label
  target : Label
  cls : EdgeClass
  listedAt : EdgeEnd
  deriving DecidableEq, Repr

namespace Mention
variable {S : Type}

/-- Whether the other end lists the edge too. -/
def answered (nodes : LabelMap (Node S)) (m : Mention) : Except Absent Bool :=
  match m.listedAt with
  | .source => do
    let other ← nodes.fetch m.target
    return (other.preds.get m.cls).contains m.source
  | .target => do
    let other ← nodes.fetch m.source
    return (other.succs.get m.cls).contains m.target

def violation (m : Mention) : Violation := .asymmetricEdge m.source m.target m.cls

/-- The edges that a node lists in one class, the outgoing ones first. -/
def ofClass (l : Label) (n : Node S) (c : EdgeClass) : List Mention :=
  (n.succs.get c).map (fun t => ⟨l, t, c, .source⟩) ++
    (n.preds.get c).map (fun s => ⟨s, l, c, .target⟩)

def ofNode (l : Label) (n : Node S) : List Mention := EdgeClass.all.flatMap (ofClass l n)

end Mention

namespace FlowGraph
variable {S : Type}

/-- The smallest label that is listed without a node or has a node without being listed. -/
def domainMismatch? (g : FlowGraph S) : Option Violation :=
  let domain := g.domain
  ((domain.insertMany g.nodes.keys).toList.find? fun l =>
    domain.contains l != g.nodes.contains l).map .domainMismatch

/-- The smallest key whose node goes by another label. -/
def labelMismatch? (g : FlowGraph S) : Option Violation :=
  (g.nodes.toList.find? fun e => e.2.label != e.1).map fun e => .labelMismatch e.1 e.2.label

/-- The first entry that is not listed. -/
def unknownEntry? (g : FlowGraph S) : Option Violation :=
  let domain := g.domain
  (g.entries.find? (· ∉ domain)).map .unknownEntry

/-- The smallest node with a neighbour that is not listed, and its first such neighbour. -/
def danglingEdge? (g : FlowGraph S) : Option Violation :=
  let domain := g.domain
  g.nodes.toList.findSome? fun e => (e.2.neighbours.find? (· ∉ domain)).map (.danglingEdge e.1)

def mentions (g : FlowGraph S) : List Mention :=
  g.nodes.toList.flatMap fun e => Mention.ofNode e.1 e.2

/-- The first edge that its other end does not list. -/
def asymmetricEdge? (g : FlowGraph S) : Except Absent (Option Violation) := do
  let unanswered ← g.mentions.findM? fun m => do return !(← m.answered g.nodes)
  return unanswered.map Mention.violation

def violation? (g : FlowGraph S) : Except Absent (Option Violation) :=
  match g.domainMismatch? <|> g.labelMismatch? <|> g.unknownEntry? <|> g.danglingEdge? with
  | some v => .ok (some v)
  | none => g.asymmetricEdge?

end FlowGraph
end FlowAnalysis
