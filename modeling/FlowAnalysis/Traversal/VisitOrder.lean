import FlowAnalysis.Graph.FlowGraph
import FlowAnalysis.Traversal.DepthFirst

/-! # The order in which labels are visited

Either ascending, or the reverse post-order of a depth-first search from the
entries, then from the labels without predecessors, then from all labels. In
reverse post-order a label mostly comes after its predecessors.
-/
namespace FlowAnalysis

inductive VisitOrder where
  | label
  | reversePostOrder
  deriving DecidableEq, Repr

instance : Inhabited VisitOrder := ⟨.reversePostOrder⟩

namespace FlowGraph
variable {S : Type}

/-- Where the search starts. -/
def roots (g : FlowGraph S) : List Label :=
  let labels := g.domain.toList
  g.entries ++ labels.filter g.isSource ++ labels

/-- The listed labels in reverse post-order. Each of them has to have a node, and entries and
successors have to be listed. -/
def reversePostOrder (g : FlowGraph S) : Except Absent (List Label) :=
  match g.domain.toList.find? fun l => !g.nodes.contains l with
  | some l => .error ⟨l⟩
  | none => DepthFirst.traverse g.targets g.domain g.roots

def visitOrder (g : FlowGraph S) : VisitOrder → Except Absent (List Label)
  | .label => .ok g.domain.toList
  | .reversePostOrder => g.reversePostOrder

end FlowGraph
end FlowAnalysis
