import FlowAnalysis.Graph.Basic

/-! # Building plain graphs

The same discipline as for path-sensitive graphs, with one class of edges. A
plain graph can also be turned around as a whole; the next label stays.
-/
namespace FlowAnalysis

namespace PlainNode
variable {S : Type}

def addSucc (n : PlainNode S) (l : Label) : PlainNode S := { n with succs := n.succs ++ [l] }

def addPred (n : PlainNode S) (l : Label) : PlainNode S := { n with preds := n.preds ++ [l] }

def dropSucc (n : PlainNode S) (l : Label) : PlainNode S :=
  { n with succs := n.succs.filter (· ≠ l) }

def dropPred (n : PlainNode S) (l : Label) : PlainNode S :=
  { n with preds := n.preds.filter (· ≠ l) }

end PlainNode

abbrev PlainGraph (S : Type) := Graph (PlainNode S)

namespace PlainGraph
variable {S : Type}

def unlink (l : Label) (gone : PlainNode S) (nodes : LabelMap (PlainNode S)) :
    LabelMap (PlainNode S) :=
  let nodes := gone.succs.foldl (fun m t => m.modify t (·.dropPred l)) nodes
  gone.preds.foldl (fun m s => m.modify s (·.dropSucc l)) nodes

/-- Adds a node without edges. A node already there is replaced, and its edges go with it. -/
def insertNode (g : PlainGraph S) (l : Label) (stmt : S) : PlainGraph S :=
  let nodes := match g.nodes[l]? with
    | some gone => unlink l gone (g.nodes.erase l)
    | none => g.nodes
  Graph.store { g with nodes } l { label := l, stmt }

def addNode (g : PlainGraph S) (stmt : S) : Label × PlainGraph S :=
  (g.nextLabel, insertNode g g.nextLabel stmt)

/-- Adds an edge at both ends. Of two ends that are absent the target is the one named. -/
def addEdge (g : PlainGraph S) (source target : Label) : Except Absent (PlainGraph S) :=
  if target ∉ g.nodes then .error ⟨target⟩
  else if source ∉ g.nodes then .error ⟨source⟩
  else
    let nodes := g.nodes.modify source (·.addSucc target)
    .ok { g with nodes := nodes.modify target (·.addPred source) }

def reverse (g : PlainGraph S) : PlainGraph S :=
  { g with nodes := g.nodes.map fun l n => { n.reverse with label := l } }

def classified (g : PlainGraph S) : LabelMap (Node S) := g.nodes.map fun _ n => n.classify

end PlainGraph
end FlowAnalysis
