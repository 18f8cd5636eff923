import FlowAnalysis.Graph.FlowGraph

/-! # Flows: the facts at every label

A label has three slots: the fact that flows in, and one fact for each class of
edges that flows out. Flows to start from are seeded, or they are given and
completed: slots of foreign labels go and missing slots are filled as seeding
would fill them.
-/
namespace FlowAnalysis

structure Flows (F : Type) where
  incoming : LabelMap F := ∅
  outgoing : PerClass (LabelMap F) := ⟨∅, ∅⟩

namespace Flows
variable {F S : Type}

instance [BEq F] : BEq (Flows F) :=
  ⟨fun a b => a.incoming == b.incoming && a.outgoing == b.outgoing⟩

instance [DecidableEq F] : DecidableEq (Flows F) := fun a b =>
  decidable_of_iff (a.incoming = b.incoming ∧ a.outgoing = b.outgoing)
    ⟨fun h => by cases a; cases b; simp_all, fun h => h ▸ ⟨rfl, rfl⟩⟩

/-- Every slot of a listed label holds the initial fact, but what flows into an entry is the
boundary fact. -/
def seeded (entries ids : List Label) (initial boundary : F) : Flows F :=
  { incoming := entries.foldl (fun m l => m.insert l boundary) (LabelMap.const ids initial)
    outgoing := ⟨LabelMap.const ids initial, LabelMap.const ids initial⟩ }

/-- Exactly the labels of the nodes, each with its own value if it has one. -/
def completeSlots (nodes : LabelMap (Node S)) (default : Label → F) (slots : LabelMap F) : LabelMap F :=
  nodes.map fun l _ => slots[l]?.getD (default l)

def complete (flows : Flows F) (g : FlowGraph S) (initial boundary : F) : Flows F :=
  { incoming := completeSlots g.nodes
      (fun l => if g.entries.contains l then boundary else initial) flows.incoming
    outgoing := flows.outgoing.map (completeSlots g.nodes fun _ => initial) }

end Flows

/-- The facts of an analysis that does not tell edges apart, before and after each label in the
order of the program. -/
structure PlainFlows (F : Type) where
  incoming : LabelMap F
  outgoing : LabelMap F

namespace Flows
variable {F : Type}

def along (flows : Flows F) : PlainFlows F := ⟨flows.incoming, flows.outgoing.notTaken⟩

/-- What a run over reversed plain nodes leaves: it flows in where the program flows out. -/
def against (flows : Flows F) : PlainFlows F := ⟨flows.outgoing.notTaken, flows.incoming⟩

end Flows
end FlowAnalysis
