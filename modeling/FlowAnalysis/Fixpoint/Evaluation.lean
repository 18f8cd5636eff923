import FlowAnalysis.Fixpoint.Problem
import FlowAnalysis.Merge

/-! # Evaluating one label

The facts that arrive at a label are gathered from the slots of its
predecessors, the not-taken ones first, and from the boundary at an entry. They
are merged and flow through the node. A slot is replaced when a fact flows into
it that differs from its own; the successors of its class have to be looked at
again. An evaluation is a record of all this, and committing it changes the
flows.
-/
namespace FlowAnalysis
variable {S F : Type}

structure Evaluation (F : Type) where
  label : Label
  /-- The facts that were merged, in order. -/
  gathered : List F
  incoming : F
  outcome : PerClass (Option F)
  /-- The facts that went into the outgoing slots. -/
  replaced : PerClass (Option F)
  awakened : List Label
  deriving DecidableEq

def Problem.gather (p : Problem S F) (flows : Flows F) (l : Label) (n : Node S) :
    Except Absent (List F) := do
  let notTaken ← n.preds.notTaken.mapM fun q => flows.outgoing.notTaken.fetch q
  let taken ← n.preds.taken.mapM fun q => flows.outgoing.taken.fetch q
  return notTaken ++ taken ++ if p.graph.entries.contains l then [p.boundary] else []

/-- The fact, if there is one and the slot holds another. -/
def news [BEq F] (slot outcome : Option F) : Option F :=
  match outcome with
  | some x => if slot == some x then none else some x
  | none => none

def Problem.evaluate [BEq F] (p : Problem S F) (tick : Nat) (flows : Flows F) (l : Label) :
    Except Absent (Evaluation F) := do
  let n ← p.graph.nodes.fetch l
  let gathered ← p.gather flows l n
  let incoming := mergeAll p.merge p.initial gathered
  let outcome := p.flow tick n incoming
  let replaced : PerClass (Option F) :=
    { notTaken := news flows.outgoing.notTaken[l]? outcome.notTaken
      taken := news flows.outgoing.taken[l]? outcome.taken }
  let awakened := EdgeClass.all.flatMap fun c =>
    if (replaced.get c).isSome then n.succs.get c else []
  return { label := l, gathered, incoming, outcome, replaced, awakened }

namespace Evaluation

def writeTo (slots : LabelMap F) (l : Label) : Option F → LabelMap F
  | some x => slots.insert l x
  | none => slots

def commit (e : Evaluation F) (flows : Flows F) : Flows F :=
  { incoming := flows.incoming.insert e.label e.incoming
    outgoing :=
      { notTaken := writeTo flows.outgoing.notTaken e.label e.replaced.notTaken
        taken := writeTo flows.outgoing.taken e.label e.replaced.taken } }

end Evaluation
end FlowAnalysis
