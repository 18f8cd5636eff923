import FlowAnalysis.Proofs.Endings
import FlowAnalysis.Proofs.LeastSolution
import FlowAnalysis.Proofs.Walks

/-! # What is built is accepted

Whatever steps build a graph, failing ones and replacements of nodes included,
it keeps the contract with any list of its labels for entries. It keeps it when
every node is read the other way round, any number of times, and a plain graph
keeps it when its edges are read as not-taken ones. So no analysis of such a
graph is ever turned away.
-/
namespace FlowAnalysis
variable {S F R : Type}

namespace BranchGraph

/-- What can be built from nothing by steps, failing ones included. -/
inductive Reachable : BranchGraph S → Prop
  | empty : Reachable .empty
  | perform {g : BranchGraph S} (h : Reachable g) (e : Edit S) : Reachable (BranchGraph.perform g e).2

variable {g : BranchGraph S} {entries : List Label}

theorem Reachable.run (es : List (Edit S)) : Reachable (Edit.run BranchGraph.perform .empty es).2 :=
  Edit.run_preserves Reachable.perform .empty es

theorem Reachable.exists_draft (h : g.Reachable) : ∃ d : Draft S, d.Closed ∧ g = d.graph := by
  induction h with
  | empty => exact ⟨{}, Draft.closed_empty, Draft.graph_empty.symm⟩
  | perform _ e ih =>
    obtain ⟨d, hd, rfl⟩ := ih
    exact ⟨(d.perform e).2, hd.perform e, congrArg Prod.snd (perform_graph hd e)⟩

theorem Reachable.valid (h : g.Reachable) (hentries : ∀ l ∈ entries, l ∈ g.labels) :
    FlowGraph.Valid ⟨entries, g.labels, g.nodes⟩ := by
  obtain ⟨d, hd, rfl⟩ := h.exists_draft
  have hmem : ∀ l, l ∈ d.graph.labels ↔ l ∈ d.stmts := fun l =>
    Std.ExtTreeMap.mem_keys.trans Draft.mem_graph
  exact Draft.valid_graph hd hmem fun l hl => (hmem l).mp (hentries l hl)

end BranchGraph

namespace FlowGraph
variable {g : FlowGraph S}

/-- The graph with every node read the other way round. -/
def reverse (g : FlowGraph S) : FlowGraph S := { g with nodes := g.nodes.map fun _ n => n.reverse }

/-- The contract does not tell the two ends of an edge apart. -/
theorem Valid.reverse (h : g.Valid) : g.reverse.Valid where
  mem_ids := fun l => (h.mem_ids l).trans Std.ExtTreeMap.mem_map.symm
  label_eq := by
    intro l n hn
    obtain ⟨m, hm, rfl⟩ := LabelMap.getElem?_map_eq_some_iff.mp hn
    have hlabel : m.label = l := h.label_eq hm
    exact hlabel
  entry_mem := h.entry_mem
  neighbour_mem := by
    intro l n hn x hx
    obtain ⟨m, hm, rfl⟩ := LabelMap.getElem?_map_eq_some_iff.mp hn
    obtain ⟨k, hk⟩ := Node.mem_neighbours.mp hx
    exact h.neighbour_mem hm x (Node.mem_neighbours.mpr ⟨k, hk.symm⟩)
  symmetric := by
    intro a b _ _ hfound hfound' k
    obtain ⟨m, hm, rfl⟩ := LabelMap.getElem?_map_eq_some_iff.mp hfound
    obtain ⟨n, hn, rfl⟩ := LabelMap.getElem?_map_eq_some_iff.mp hfound'
    exact (h.symmetric hn hm k).symm

/-- What an analysis is given of a graph that was built: all labels, some of them as entries, and the
nodes, read the other way round any number of times. The edges of a plain graph are read as not-taken
ones. -/
inductive Built : FlowGraph S → Prop
  | branching {g : BranchGraph S} {entries : List Label} :
      g.Reachable → (∀ l ∈ entries, l ∈ g.labels) → Built ⟨entries, g.labels, g.nodes⟩
  | plain {g : PlainGraph S} {entries : List Label} :
      g.Reachable → (∀ l ∈ entries, l ∈ g.labels) → Built ⟨entries, g.labels, g.classified⟩
  | reverse {g : FlowGraph S} : Built g → Built g.reverse

theorem Built.valid (h : g.Built) : g.Valid := by
  induction h with
  | branching hg hentries => exact hg.valid hentries
  | plain hg hentries => exact hg.valid fun l hl => PlainGraph.mem_labels.mp (hentries l hl)
  | reverse _ ih => exact ih.reverse

end FlowGraph

namespace PlainProblem
variable {p : PlainProblem S F} {g : PlainGraph S}

/-- The problem is about all of the graph and enters it at labels of its own. -/
structure Over (p : PlainProblem S F) (g : PlainGraph S) : Prop where
  nodes : p.nodes = g.nodes
  ids : p.ids = g.labels
  entries : ∀ l ∈ p.entries, l ∈ g.labels

theorem Over.withoutBoundary (h : p.Over g) : p.withoutBoundary.Over g :=
  ⟨h.nodes, h.ids, fun _ hl => absurd hl List.not_mem_nil⟩

theorem Over.built_forward (h : p.Over g) (hg : g.Reachable) : p.forward.graph.Built := by
  rw [forward, h.nodes, h.ids]
  exact .plain hg h.entries

theorem backward_graph : p.backward.graph = p.forward.graph.reverse := by
  rw [forward, FlowGraph.reverse, Std.ExtTreeMap.map_map]
  rfl

theorem Over.built_backward (h : p.Over g) (hg : g.Reachable) : p.backward.graph.Built :=
  backward_graph ▸ (h.built_forward hg).reverse

end PlainProblem

/-- The graph has been turned away. -/
def Report.Rejects (r : Report F R) : Prop := ∃ v, r.failure? = some (.malformed v)

theorem Report.Accounts.not_rejects {r : Report F R} {g : FlowGraph S} (h : r.Accounts g) (hg : g.Built) :
    ¬ r.Rejects := fun hr => h.rejected_iff.mp hr hg.valid

/-- A graph that was built is accepted in whatever way it is read, and so no solver turns it away. -/
theorem FlowGraph.built_accepted [BEq F] (settings : Settings) (steps : Nat) :
    (∀ g : FlowGraph S, g.Built → g.violation? = .ok none) ∧
    (∀ p : Problem S F, p.graph.Built → ¬ (p.analyze settings steps).Rejects ∧
      ∀ flows, ¬ (p.solve settings steps flows).Rejects) ∧
    ∀ (p : PlainProblem S F) (g : PlainGraph S), g.Reachable → p.Over g →
      ¬ (p.analyzeForward settings steps).Rejects ∧ ¬ (p.analyzeBackward settings steps).Rejects ∧
      ¬ (p.withoutBoundary.analyzeBackward settings steps).Rejects := by
  refine ⟨fun g hg => violation?_eq_ok_none_iff.mpr hg.valid, fun p hp => ⟨?_, fun flows => ?_⟩,
    fun p g hg hp => ⟨?_, ?_, ?_⟩⟩
  · exact (p.solve_accounts settings steps p.seeded).not_rejects hp
  · exact (p.solve_accounts settings steps flows).not_rejects hp
  · have haccounts := p.forward.solve_accounts settings steps p.forward.seeded
    exact (haccounts.mapFlows Flows.along).not_rejects (hp.built_forward hg)
  · have haccounts := p.backward.solve_accounts settings steps p.backward.seeded
    exact (haccounts.mapFlows Flows.against).not_rejects (hp.built_backward hg)
  · have haccounts := p.withoutBoundary.backward.solve_accounts settings steps
      p.withoutBoundary.backward.seeded
    exact (haccounts.mapFlows Flows.against).not_rejects (hp.withoutBoundary.built_backward hg)

/-- A node with a loop gives way to one without. The edge to an absent label fails. -/
def rebuilt : BranchGraph Unit := (Edit.run BranchGraph.perform .empty
  [.addNode (), .addNode (), .addEdge 0 0 .taken, .addEdge 0 1 .notTaken, .addEdge 1 9 .taken,
    .insertNode 0 (), .addEdge 1 0 .taken]).2

/-- The reversed shortcut, built on. -/
def reopened : PlainGraph Unit := (PlainGraph.perform PlainProblem.bypass.reverse (.addEdge 2 2 .notTaken)).2

theorem FlowGraph.built_accepted_rebuilt :
    let g : FlowGraph Unit := .reverse ⟨[1, 0, 1], rebuilt.labels, rebuilt.nodes⟩
    g.violation? = .ok none ∧ g.targets 0 = [1] ∧ ¬ ((Problem.reaching g [1]).analyze {} 20).Rejects ∧
    ¬ ((PlainProblem.ahead.withGraph reopened).analyzeBackward {} 20).Rejects := by
  intro g
  have hentries : [1, 0, 1] ⊆ rebuilt.labels := by decide +kernel
  have hbuilt : g.Built := .reverse (.branching (.run _) fun _ hl => hentries hl)
  have hreopened : reopened.Reachable := PlainProblem.bypass_reachable.reverse.perform _
  have hover : (PlainProblem.ahead.withGraph reopened).Over reopened :=
    ⟨rfl, by decide +kernel, List.forall_mem_singleton.mpr (by decide +kernel)⟩
  obtain ⟨haccepted, hanalyze, _⟩ := built_accepted (S := Unit) (F := Bool) {} 20
  obtain ⟨_, _, hplain⟩ := built_accepted (S := Unit) (F := List Label) {} 20
  exact ⟨haccepted g hbuilt, by decide +kernel, (hanalyze (Problem.reaching g [1]) hbuilt).1,
    (hplain _ reopened hreopened hover).2.1⟩

end FlowAnalysis
