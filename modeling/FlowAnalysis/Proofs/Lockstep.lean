import FlowAnalysis.Proofs.Classification
import FlowAnalysis.Proofs.Execution
import FlowAnalysis.Proofs.Violations

/-! # Plain graphs and path-sensitive ones in lockstep

The same steps build a plain graph and a path-sensitive one whose edges are all
not taken. Both answer every step alike, and what one graph stores under a label
is the view of what the other stores there. An analysis that knows of a node its
label and its statement is therefore one and the same problem over both. Along
the taken edges nothing ever flows, so their slots stay as they were seeded.
-/
namespace FlowAnalysis
variable {S F G : Type}

namespace Edit

theorem run_map_edits (perform : G → Edit S → Reply × G) (φ : Edit S → Edit S) (g : G)
    (es : List (Edit S)) : run perform g (es.map φ) = run (fun g e => perform g (φ e)) g es := by
  induction es generalizing g with
  | nil => rfl
  | cons e es ih => simp only [List.map_cons, run, ih]

end Edit

namespace PlainGraph

theorem branching_empty : branching (.empty : PlainGraph S) = .empty := by
  simp [branching, classified, Graph.empty]

theorem run_branching (es : List (Edit S)) :
    Edit.run BranchGraph.perform .empty (es.map Edit.unclassified) =
      (Edit.run PlainGraph.perform .empty es).map id branching := by
  rw [Edit.run_map_edits, ← branching_empty]
  have hview : ∀ {g : PlainGraph S}, True → ∀ e, BranchGraph.perform g.branching e.unclassified =
      (PlainGraph.perform g e).map id branching := fun _ => perform_branching
  exact Edit.run_map branching hview (fun _ _ => trivial) trivial es

end PlainGraph

/-- Along a class of edges on which nothing ever flows every slot stays as it was seeded. -/
theorem Problem.analyze_idle [BEq F] {p : Problem S F} {k : EdgeClass}
    (hf : ∀ tick n x, (p.flow tick n x).get k = none) (settings : Settings) (steps : Nat) :
    (p.analyze settings steps).flows.outgoing.get k = LabelMap.const p.graph.ids p.initial := by
  obtain ⟨v, hv, _⟩ := p.graph.exists_violation?
  cases v with
  | some v =>
    simp only [analyze, solve, hv]
    cases k <;> rfl
  | none =>
    have hvalid := FlowGraph.violation?_eq_ok_none_iff.mp hv
    obtain ⟨s, t, ending, hs, hr, hrun, _⟩ := solve_reaches hv settings steps p.seeded
    have hkept := hr.preserves hvalid
      (fun s => s.flows.outgoing.get k = LabelMap.const p.graph.ids p.initial) ?_ hs.sound ?_
    · rw [analyze, hrun]
      exact hkept.2
    · intro s t n e _ ha hi
      have hreplaced : e.replaced.get k = none := by
        rw [ha.evaluates.replaced, ha.evaluates.outcome, hf]
        rfl
      rw [ha.flows, Evaluation.get_commit_outgoing, hreplaced]
      exact hi
    · rw [hs.flows, Flows.get_complete_outgoing]
      apply Std.ExtTreeMap.ext_getElem?
      intro l
      rw [Flows.getElem?_completeSlots, getElem?_seeded_outgoing, LabelMap.getElem?_const]
      by_cases hl : l ∈ p.graph.ids
      · obtain ⟨n, hn⟩ := LabelMap.exists_of_mem ((hvalid.mem_ids l).mp hl)
        simp [hl, hn]
      · have hn : l ∉ p.graph.nodes := mt (hvalid.mem_ids l).mpr hl
        simp [hl, Std.ExtTreeMap.getElem?_eq_none hn]

/-- A problem apart from its nodes. What flows through a node depends on its label and statement. -/
structure Analysis (S F : Type) where
  entries : List Label
  ids : List Label
  merge : F → F → F
  flow : Nat → Label → S → F → F
  initial : F
  boundary : F

namespace Analysis

def plain (a : Analysis S F) (g : PlainGraph S) : PlainProblem S F where
  entries := a.entries
  ids := a.ids
  nodes := g.nodes
  merge := a.merge
  flow tick n x := a.flow tick n.label n.stmt x
  initial := a.initial
  boundary := a.boundary

/-- Nothing flows along the taken edges. -/
def branching (a : Analysis S F) (g : BranchGraph S) : Problem S F where
  graph := ⟨a.entries, a.ids, g.nodes⟩
  merge := a.merge
  flow tick n x := ⟨some (a.flow tick n.label n.stmt x), none⟩
  initial := a.initial
  boundary := a.boundary

theorem forward_plain (a : Analysis S F) (g : PlainGraph S) :
    (a.plain g).forward = a.branching g.branching := rfl

end Analysis

/-- Steps that build a plain graph and steps that build a path-sensitive one without taken edges are
answered alike, failing ones included, and at every label the one graph has the view of the node of
the other. Whatever is analysed then, both runs make the same evaluations in the same order and end
in the same way with the same facts, and the taken slots of the path-sensitive run hold the initial
fact. -/
theorem Edit.run_lockstep [BEq F] (es : List (Edit S)) :
    let plain := run PlainGraph.perform .empty es
    let branching := run BranchGraph.perform .empty (es.map unclassified)
    branching.1 = plain.1 ∧ branching.2.nextLabel = plain.2.nextLabel ∧
    (∀ l : Label, branching.2.nodes[l]? = plain.2.nodes[l]?.map PlainNode.classify) ∧
    ∀ (a : Analysis S F) (settings : Settings) (steps : Nat),
      let sensitive := (a.branching branching.2).analyze settings steps
      (a.plain plain.2).analyzeForward settings steps = sensitive.mapFlows Flows.along ∧
      sensitive.flows.outgoing.taken = LabelMap.const a.ids a.initial := by
  intro plain branching
  have hrun : branching = plain.map id PlainGraph.branching := PlainGraph.run_branching es
  refine ⟨congrArg Prod.fst hrun, congrArg (·.2.nextLabel) hrun, fun l => ?_,
    fun a settings steps => ⟨?_, ?_⟩⟩
  · rw [hrun]
    exact PlainGraph.getElem?_classified
  · rw [hrun, PlainProblem.analyzeForward, a.forward_plain]
    rfl
  · exact Problem.analyze_idle (k := .taken) (fun _ _ _ => rfl) settings steps

end FlowAnalysis
