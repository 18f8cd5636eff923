import FlowAnalysis.Graph.Basic

/-! # Building path-sensitive graphs

Every edge is written down at both of its ends, under its class. Replacing a
node therefore goes through the four lists of the node that leaves and strikes
its label from the opposite list of each neighbour found there.
-/
namespace FlowAnalysis

namespace Node
variable {S : Type}

def addSucc (n : Node S) (c : EdgeClass) (l : Label) : Node S :=
  { n with succs := n.succs.modify c (· ++ [l]) }

def addPred (n : Node S) (c : EdgeClass) (l : Label) : Node S :=
  { n with preds := n.preds.modify c (· ++ [l]) }

def dropSucc (n : Node S) (c : EdgeClass) (l : Label) : Node S :=
  { n with succs := n.succs.modify c (·.filter (· ≠ l)) }

def dropPred (n : Node S) (c : EdgeClass) (l : Label) : Node S :=
  { n with preds := n.preds.modify c (·.filter (· ≠ l)) }

end Node

abbrev BranchGraph (S : Type) := Graph (Node S)

namespace BranchGraph
variable {S : Type}

/-- Strikes l, whose node is gone, from the lists of the neighbours that this node names in one class. -/
def unlinkClass (l : Label) (gone : Node S) (nodes : LabelMap (Node S)) (c : EdgeClass) :
    LabelMap (Node S) :=
  let nodes := (gone.succs.get c).foldl (fun m t => m.modify t (·.dropPred c l)) nodes
  (gone.preds.get c).foldl (fun m s => m.modify s (·.dropSucc c l)) nodes

def unlink (l : Label) (gone : Node S) (nodes : LabelMap (Node S)) : LabelMap (Node S) :=
  EdgeClass.all.foldl (unlinkClass l gone) nodes

/-- Adds a node without edges. A node already there is replaced, and its edges go with it. -/
def insertNode (g : BranchGraph S) (l : Label) (stmt : S) : BranchGraph S :=
  let nodes := match g.nodes[l]? with
    | some gone => unlink l gone (g.nodes.erase l)
    | none => g.nodes
  Graph.store { g with nodes } l { label := l, stmt }

def addNode (g : BranchGraph S) (stmt : S) : Label × BranchGraph S :=
  (g.nextLabel, insertNode g g.nextLabel stmt)

/-- Adds an edge at both ends. Of two ends that are absent the target is the one named. -/
def addEdge (g : BranchGraph S) (source target : Label) (c : EdgeClass) :
    Except Absent (BranchGraph S) :=
  if target ∉ g.nodes then .error ⟨target⟩
  else if source ∉ g.nodes then .error ⟨source⟩
  else
    let nodes := g.nodes.modify source (·.addSucc c target)
    .ok { g with nodes := nodes.modify target (·.addPred c source) }

end BranchGraph
end FlowAnalysis
