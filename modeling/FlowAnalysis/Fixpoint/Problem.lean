import FlowAnalysis.Fixpoint.Flows

/-! # Data-flow problems

A problem is a graph together with the way facts are merged and the way they
flow through a node. Nothing is assumed of the two functions. The flow function
is told the number of the evaluation, counted from one, so that it may change
as a run goes on; a steady one ignores it.

Plain problems are path-sensitive ones without taken edges, forwards over the
nodes as they are and backwards over the reversed nodes.
-/
namespace FlowAnalysis
variable {S F : Type}

structure Problem (S F : Type) where
  graph : FlowGraph S
  merge : F → F → F
  /-- The facts that leave a node per class of edges; nothing flows where there is none. -/
  flow : Nat → Node S → F → PerClass (Option F)
  /-- Where every slot starts, and what merging no facts gives. -/
  initial : F
  /-- What is merged into the facts that flow into an entry. -/
  boundary : F

def Problem.seeded (p : Problem S F) : Flows F :=
  Flows.seeded p.graph.entries p.graph.ids p.initial p.boundary

structure PlainProblem (S F : Type) where
  entries : List Label
  ids : List Label
  nodes : LabelMap (PlainNode S)
  merge : F → F → F
  flow : Nat → PlainNode S → F → F
  initial : F
  boundary : F

namespace PlainProblem

def forward (p : PlainProblem S F) : Problem S F :=
  { graph := ⟨p.entries, p.ids, p.nodes.map fun _ n => n.classify⟩
    merge := p.merge
    flow := fun tick n x => ⟨some (p.flow tick n.plain x), none⟩
    initial := p.initial
    boundary := p.boundary }

/-- The entries are the exits of the program. The flow function sees the node as it is. -/
def backward (p : PlainProblem S F) : Problem S F :=
  { graph := ⟨p.entries, p.ids, p.nodes.map fun _ n => n.classify.reverse⟩
    merge := p.merge
    flow := fun tick n x => ⟨some (p.flow tick n.reverse.plain x), none⟩
    initial := p.initial
    boundary := p.boundary }

/-- The same problem without exits, where the initial fact is the only one to start from. -/
def withoutBoundary (p : PlainProblem S F) : PlainProblem S F :=
  { p with entries := [], boundary := p.initial }

end PlainProblem
end FlowAnalysis
