import FlowAnalysis.Graph.Node

/-! # Control flow graphs that own their nodes

A graph keeps its nodes under their labels, together with the label that the
next unnamed node will get. That label never falls behind a stored one, up to
the last label, which nothing can follow.
-/
namespace FlowAnalysis

structure Graph (N : Type) where
  nodes : LabelMap N := ∅
  nextLabel : Label := 0
  deriving DecidableEq

namespace Graph
variable {N : Type}

def empty : Graph N := {}

def labels (g : Graph N) : List Label := g.nodes.keys

def node? (g : Graph N) (l : Label) : Option N := g.nodes[l]?

def size (g : Graph N) : Nat := g.nodes.size

def isEmpty (g : Graph N) : Bool := g.nodes.isEmpty

/-- Puts a node under its label and moves the next label past it. -/
def store (g : Graph N) (l : Label) (n : N) : Graph N :=
  { nodes := g.nodes.insert l n, nextLabel := max g.nextLabel l.following }

end Graph
end FlowAnalysis
