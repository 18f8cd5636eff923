import FlowAnalysis.Fixpoint.Solve
import FlowAnalysis.Proofs.Classification

/-! # Going backwards is going forwards over the reversed graph

Reversing a graph reverses the edges of its draft, so a graph that was built and
reversed in any order is the graph of some draft, and its nodes are stored under
their own labels. For such graphs the problem that reads every node backwards is
the problem that reads the reversed graph forwards, as long as the flow function
does not look at the edges. What is the same problem is solved in the same way,
evaluation by evaluation.
-/
namespace FlowAnalysis
variable {S F : Type}

namespace Draft
variable {d : Draft S}

/-- Every edge points the other way. -/
def flip (d : Draft S) : Draft S :=
  { d with log := d.log.map fun e => { e with source := e.target, target := e.source } }

theorem Closed.flip (h : d.Closed) : d.flip.Closed := by
  intro e he
  obtain ⟨f, hf, rfl⟩ := List.mem_map.mp he
  exact (h f hf).symm

theorem plainNode_flip {l : Label} {s : S} : d.flip.plainNode l s = (d.plainNode l s).reverse := by
  simp [plainNode, PlainNode.reverse, flip, List.filter_map, Function.comp_def]

theorem plainGraph_flip : d.flip.plainGraph = d.plainGraph.reverse := by
  have hnodes : d.flip.plainGraph.nodes = d.plainGraph.reverse.nodes := by
    rw [PlainGraph.reverse, plainGraph, plainGraph, Std.ExtTreeMap.map_map]
    exact LabelMap.map_congr fun _ => plainNode_flip
  exact congrArg₂ Graph.mk hnodes rfl

end Draft

namespace PlainGraph
variable {g : PlainGraph S}

/-- What can be built from nothing by steps, failing ones included, and by reversing the whole. -/
inductive Reachable : PlainGraph S → Prop
  | empty : Reachable .empty
  | perform {g : PlainGraph S} (h : Reachable g) (e : Edit S) : Reachable (PlainGraph.perform g e).2
  | reverse {g : PlainGraph S} (h : Reachable g) : Reachable g.reverse

theorem Reachable.run (es : List (Edit S)) : Reachable (Edit.run PlainGraph.perform .empty es).2 :=
  Edit.run_preserves Reachable.perform .empty es

theorem Reachable.exists_draft (h : g.Reachable) : ∃ d : Draft S, d.Closed ∧ g = d.plainGraph := by
  induction h with
  | empty => exact ⟨{}, Draft.closed_empty, Draft.plainGraph_empty.symm⟩
  | perform _ e ih =>
    obtain ⟨d, hd, rfl⟩ := ih
    exact ⟨(d.perform e).2, hd.perform e, congrArg Prod.snd (perform_plainGraph hd e)⟩
  | reverse _ ih =>
    obtain ⟨d, hd, rfl⟩ := ih
    exact ⟨d.flip, hd.flip, Draft.plainGraph_flip.symm⟩

theorem Reachable.label (h : g.Reachable) {l : Label} {n : PlainNode S} (hn : g.nodes[l]? = some n) :
    n.label = l := by
  obtain ⟨d, hd, rfl⟩ := h.exists_draft
  exact (draws_plainGraph hd).label hn

end PlainGraph

namespace Problem
variable [BEq F] {p q : Problem S F}

/-- A run does not look into a problem but through its evaluations. -/
theorem run_congr (h : p.evaluate = q.evaluate) (bound steps : Nat) (s : State F) :
    p.run bound steps s = q.run bound steps s := by
  have hstep : ∀ s, p.step bound s = q.step bound s := fun s => by rw [step, step, h]
  induction steps generalizing s with
  | zero => rfl
  | succ steps ih =>
    rw [run, run, hstep]
    split
    · exact ih _
    · rfl

/-- What is merged in at the entries does not matter if there are none. -/
theorem analyze_of_no_entries (h : p.graph.entries = []) (b : F) (settings : Settings) (steps : Nat) :
    analyze { p with boundary := b } settings steps = p.analyze settings steps := by
  have hevaluate : evaluate { p with boundary := b } = p.evaluate := by
    funext tick flows l
    simp [evaluate, gather, h]
  have hseeded : seeded { p with boundary := b } = p.seeded := by
    simp [seeded, Flows.seeded, h]
  have hcomplete : p.seeded.complete p.graph p.initial b =
      p.seeded.complete p.graph p.initial p.boundary := by
    simp [Flows.complete, h]
  simp only [analyze, solve, hseeded, hcomplete, run_congr hevaluate]
  rfl

end Problem

namespace PlainProblem
variable {p : PlainProblem S F} {g : PlainGraph S}

/-- The flow function looks at the label and the statement of a node, and not at its edges. -/
def Local (p : PlainProblem S F) : Prop :=
  ∀ {tick : Nat} {m n : PlainNode S} {x : F}, m.label = n.label → m.stmt = n.stmt →
    p.flow tick m x = p.flow tick n x

/-- The problem with the nodes of a graph for its own. -/
def withGraph (p : PlainProblem S F) (g : PlainGraph S) : PlainProblem S F :=
  { p with nodes := g.nodes }

theorem backward_eq_forward_reverse (hg : g.Reachable) (hp : p.Local) :
    (p.withGraph g).backward = (p.withGraph g.reverse).forward := by
  have hnodes : (p.withGraph g).backward.graph.nodes = (p.withGraph g.reverse).forward.graph.nodes := by
    simp only [backward, forward, withGraph, PlainGraph.reverse, Std.ExtTreeMap.map_map]
    refine LabelMap.map_congr fun hn => ?_
    obtain rfl := hg.label hn
    rfl
  have hflow : (p.withGraph g).backward.flow = (p.withGraph g.reverse).forward.flow := by
    funext tick n x
    exact congrArg (fun y => (⟨some y, none⟩ : PerClass (Option F))) (hp rfl rfl)
  calc (p.withGraph g).backward
      = ⟨⟨p.entries, p.ids, (p.withGraph g).backward.graph.nodes⟩, p.merge, (p.withGraph g).backward.flow,
          p.initial, p.boundary⟩ := rfl
    _ = (p.withGraph g.reverse).forward := by
        rw [hnodes, hflow]
        rfl

end PlainProblem

/-- The facts before and after each label, exchanged. -/
def PlainFlows.exchange (flows : PlainFlows F) : PlainFlows F := ⟨flows.outgoing, flows.incoming⟩

/-- Backwards over a graph and forwards over the reversed graph, a run evaluates the same labels in
the same order, merges the same facts and lets the same facts flow there, ends in the same way, and
leaves the same facts on the other side of each label. A backward run that knows no exits is the one
with an empty list of them, whatever would have been merged in there. -/
theorem PlainProblem.analyzeBackward_eq_analyzeForward_reverse [BEq F] {p : PlainProblem S F}
    {g : PlainGraph S} (hg : g.Reachable) (hp : p.Local) (settings : Settings) (steps : Nat) :
    (p.withGraph g).analyzeBackward settings steps =
      ((p.withGraph g.reverse).analyzeForward settings steps).mapFlows PlainFlows.exchange ∧
    (p.withGraph g).withoutBoundary.analyzeBackward settings steps =
      ({ p with entries := [] }.withGraph g).analyzeBackward settings steps := by
  constructor
  · rw [analyzeBackward, analyzeForward, backward_eq_forward_reverse hg hp]
    rfl
  · have hproblem : (p.withGraph g).withoutBoundary.backward =
        { ({ p with entries := [] }.withGraph g).backward with boundary := p.initial } := rfl
    rw [analyzeBackward, analyzeBackward, hproblem, Problem.analyze_of_no_entries rfl]

namespace PlainProblem

/-- A way in, a loop and a way out, with a shortcut past the loop. -/
def bypass : PlainGraph Unit := (Edit.run PlainGraph.perform .empty
  [.addNode (), .addNode (), .addNode (), .addEdge 0 1 .notTaken, .addEdge 1 1 .notTaken,
    .addEdge 1 2 .notTaken, .addEdge 0 2 .notTaken]).2

/-- The labels that lie ahead, the next ones first. -/
def ahead : PlainProblem Unit (List Label) where
  entries := [2]
  ids := [0, 1, 2]
  nodes := ∅
  merge xs ys := xs ++ ys.filter (· ∉ xs)
  flow _ n xs := n.label :: xs.filter (· ≠ n.label)
  initial := []
  boundary := [7]

theorem bypass_reachable : bypass.Reachable := .run _

theorem ahead_local : ahead.Local := by
  intro tick m n xs hlabel _
  simp only [ahead, hlabel]

/-- The exit is heard of at the way in, whether the program is read backwards or its reverse
forwards. -/
theorem analyzeBackward_eq_bypass :
    ((ahead.withGraph bypass).analyzeBackward {} 20).ending = .settled ∧
    ((ahead.withGraph bypass).analyzeBackward {} 20).visits = [2, 1, 1, 0] ∧
    ((ahead.withGraph bypass).analyzeBackward {} 20).flows.incoming[(0 : Label)]? = some [0, 1, 2, 7] := by
  obtain ⟨hsame, _⟩ := analyzeBackward_eq_analyzeForward_reverse bypass_reachable ahead_local {} 20
  rw [hsame]
  decide +kernel

end PlainProblem
end FlowAnalysis
