import FlowAnalysis.Proofs.Building

/-! # Plain graphs as path-sensitive ones

A plain graph is the path-sensitive graph that is built by the same steps with
every edge not taken. What has been shown of drafts therefore carries over: both
kinds of graphs are at any time what their draft says.
-/
namespace FlowAnalysis
variable {S : Type}

/-- The same step with a not-taken edge. -/
def Edit.unclassified : Edit S → Edit S
  | .addEdge a b _ => .addEdge a b .notTaken
  | e => e

namespace PlainGraph
variable {g : PlainGraph S}

/-- The graph whose edges are all not taken. -/
def branching (g : PlainGraph S) : BranchGraph S :=
  { nodes := g.classified, nextLabel := g.nextLabel }

theorem branching_injective : Function.Injective (branching (S := S)) := by
  have hplain : ∀ g : PlainGraph S, g.branching.nodes.map (fun _ n => n.plain) = g.nodes := fun g => by
    simp [branching, classified]
  intro g h he
  have hnodes : g.nodes = h.nodes := by rw [← hplain g, he, hplain h]
  have hnext : g.branching.nextLabel = h.branching.nextLabel := congrArg Graph.nextLabel he
  exact congrArg₂ Graph.mk hnodes hnext

theorem mem_classified {l : Label} : l ∈ g.classified ↔ l ∈ g.nodes := Std.ExtTreeMap.mem_map

theorem getElem?_classified {l : Label} : g.classified[l]? = g.nodes[l]?.map PlainNode.classify :=
  Std.ExtTreeMap.getElem?_map

theorem classified_unlink (l : Label) (gone : PlainNode S) (nodes : LabelMap (PlainNode S)) :
    (unlink l gone nodes).map (fun _ n => n.classify) =
      BranchGraph.unlink l gone.classify (nodes.map fun _ n => n.classify) := by
  rw [unlink, LabelMap.map_foldl_modify (g := PlainNode.classify) (v := (·.dropSucc .notTaken l))
      fun _ => rfl, LabelMap.map_foldl_modify (g := PlainNode.classify)
      (v := (·.dropPred .notTaken l)) fun _ => rfl]
  rfl

theorem insertNode_branching (l : Label) (s : S) :
    BranchGraph.insertNode g.branching l s = (insertNode g l s).branching := by
  have hfound : g.branching.nodes[l]? = g.nodes[l]?.map PlainNode.classify := getElem?_classified
  have hnodes : (BranchGraph.insertNode g.branching l s).nodes = (insertNode g l s).classified := by
    rw [classified, insertNode, Graph.store, LabelMap.map_insert, BranchGraph.insertNode, hfound,
      Graph.store]
    cases g.nodes[l]? with
    | none => rfl
    | some gone => exact congrArg (Std.ExtTreeMap.insert · l _) (by
        simp only [Option.map_some, classified_unlink, LabelMap.map_erase, branching, classified])
  exact congrArg₂ Graph.mk hnodes rfl

theorem connect_branching (a b : Label) :
    (g.branching.nodes.modify a (·.addSucc .notTaken b)).modify b (·.addPred .notTaken a) =
      ((g.nodes.modify a (·.addSucc b)).modify b (·.addPred a)).map fun _ n => n.classify := by
  rw [LabelMap.map_modify (g := PlainNode.classify) (v := (·.addPred .notTaken a)) fun _ => rfl,
    LabelMap.map_modify (g := PlainNode.classify) (v := (·.addSucc .notTaken b)) fun _ => rfl]
  rfl

theorem perform_branching (e : Edit S) :
    BranchGraph.perform g.branching e.unclassified = (PlainGraph.perform g e).map id branching := by
  cases e with
  | addNode s => exact congrArg (Prod.mk _) (insertNode_branching g.nextLabel s)
  | insertNode l s => exact congrArg (Prod.mk _) (insertNode_branching l s)
  | addEdge a b k =>
    have hmem : ∀ l : Label, l ∈ g.branching.nodes ↔ l ∈ g.nodes := fun l => mem_classified
    simp only [Edit.unclassified, BranchGraph.perform, PlainGraph.perform, BranchGraph.addEdge, addEdge,
      hmem, connect_branching]
    by_cases hb : b ∈ g.nodes
    · by_cases ha : a ∈ g.nodes
      · simp only [hb, ha, not_true_eq_false, if_false]
        rfl
      · simp only [hb, ha, not_true_eq_false, not_false_eq_true, if_false, if_true]
        rfl
    · simp only [hb, not_false_eq_true, if_true]
      rfl

end PlainGraph

namespace Draft
variable {d : Draft S} {l : Label} {s : S}

/-- The draft whose edges are all not taken. -/
def unclassified (d : Draft S) : Draft S :=
  { d with log := d.log.map fun e => { e with cls := .notTaken } }

theorem sources_unclassified (k : EdgeClass) : d.unclassified.sources l k =
    if k = .notTaken then (d.log.filter fun e => e.target = l).map (·.source) else [] := by
  cases k <;> simp [sources, unclassified, List.filter_map, Function.comp_def]

theorem targets_unclassified (k : EdgeClass) : d.unclassified.targets l k =
    if k = .notTaken then (d.log.filter fun e => e.source = l).map (·.target) else [] := by
  cases k <;> simp [targets, unclassified, List.filter_map, Function.comp_def]

theorem classify_plainNode : (d.plainNode l s).classify = d.unclassified.node l s := by
  refine Node.ext_get rfl (fun k => ?_) (fun k => ?_) rfl
  · rw [preds_node, sources_unclassified]
    cases k <;> rfl
  · rw [succs_node, targets_unclassified]
    cases k <;> rfl

theorem branching_plainGraph : d.plainGraph.branching = d.unclassified.graph := by
  have hnodes : d.plainGraph.classified = d.unclassified.graph.nodes := by
    rw [PlainGraph.classified, plainGraph, Std.ExtTreeMap.map_map]
    exact LabelMap.map_congr fun _ => classify_plainNode
  exact congrArg₂ Graph.mk hnodes rfl

theorem Closed.unclassified (h : d.Closed) : d.unclassified.Closed := by
  intro e he
  obtain ⟨f, hf, rfl⟩ := List.mem_map.mp he
  exact h f hf

theorem unclassified_place : d.unclassified.place l s = (d.place l s).unclassified := by
  simp only [place, unclassified, List.filter_map]
  rfl

theorem unclassified_connect (a b : Label) (k : EdgeClass) :
    d.unclassified.connect a b .notTaken = (d.connect a b k).unclassified := by
  simp [connect, unclassified]

theorem perform_unclassified (e : Edit S) :
    d.unclassified.perform e.unclassified = (d.perform e).map id unclassified := by
  cases e with
  | addNode s => exact congrArg (Prod.mk _) unclassified_place
  | insertNode l s => exact congrArg (Prod.mk _) unclassified_place
  | addEdge a b k =>
    have hstmts : d.unclassified.stmts = d.stmts := rfl
    simp only [Edit.unclassified, perform, hstmts, unclassified_connect a b k]
    split
    · rfl
    split
    · rfl
    · rfl

end Draft

namespace PlainGraph
variable {d : Draft S}

/-- The path-sensitive view of a graph determines it, and there the step is known. -/
theorem perform_plainGraph (hd : d.Closed) (e : Edit S) :
    PlainGraph.perform d.plainGraph e = (d.perform e).map id Draft.plainGraph := by
  apply Function.Injective.prodMap Function.injective_id branching_injective
  calc (PlainGraph.perform d.plainGraph e).map id branching
      = BranchGraph.perform d.unclassified.graph e.unclassified := by
        rw [← perform_branching, Draft.branching_plainGraph]
    _ = (d.unclassified.perform e.unclassified).map id Draft.graph :=
        BranchGraph.perform_graph hd.unclassified _
    _ = ((d.perform e).map id Draft.plainGraph).map id branching := by
        rw [Draft.perform_unclassified]
        exact congrArg (Prod.mk _) Draft.branching_plainGraph.symm

theorem draws_plainGraph (hd : d.Closed) : Draws d.plainGraph d := by
  have hnode : ∀ {l n}, d.plainGraph.nodes[l]? = some n → ∃ s, d.plainNode l s = n := fun h => by
    obtain ⟨s, _, hs⟩ := LabelMap.getElem?_map_eq_some_iff.mp h
    exact ⟨s, hs⟩
  constructor
  case stmt =>
    intro l
    rw [Draft.getElem?_plainGraph, Option.map_map]
    exact congrFun Option.map_id_fun' _
  case label =>
    intro l n h
    obtain ⟨s, rfl⟩ := hnode h
    rfl
  case succs =>
    intro l n h
    obtain ⟨s, rfl⟩ := hnode h
    rfl
  case preds =>
    intro l n h
    obtain ⟨s, rfl⟩ := hnode h
    rfl
  case inside =>
    intro l n h x hx
    obtain ⟨s, rfl⟩ := hnode h
    apply Std.ExtTreeMap.mem_map.mpr
    rcases List.mem_append.mp hx with hp | hs
    · obtain ⟨e, he, rfl⟩ := List.mem_map.mp hp
      exact (hd e (List.mem_of_mem_filter he)).1
    · obtain ⟨e, he, rfl⟩ := List.mem_map.mp hs
      exact (hd e (List.mem_of_mem_filter he)).2

end PlainGraph

/-- Whatever steps are taken, a graph of either kind answers them as the draft does and remains
what the draft says, also after steps that fail. -/
theorem Edit.run_draws (es : List (Edit S)) :
    let drawn := run Draft.perform {} es
    let branching := run BranchGraph.perform .empty es
    let plain := run PlainGraph.perform .empty es
    branching = (drawn.1, drawn.2.graph) ∧ branching.2.Draws drawn.2 ∧
      plain = (drawn.1, drawn.2.plainGraph) ∧ plain.2.Draws drawn.2 := by
  intro drawn branching plain
  have hclosed : drawn.2.Closed := run_preserves Draft.Closed.perform Draft.closed_empty es
  have hbranching : branching = (drawn.1, drawn.2.graph) := by
    have hrun := run_map Draft.graph BranchGraph.perform_graph Draft.Closed.perform Draft.closed_empty es
    rwa [Draft.graph_empty] at hrun
  have hplain : plain = (drawn.1, drawn.2.plainGraph) := by
    have hrun :=
      run_map Draft.plainGraph PlainGraph.perform_plainGraph Draft.Closed.perform Draft.closed_empty es
    rwa [Draft.plainGraph_empty] at hrun
  exact ⟨hbranching, hbranching ▸ BranchGraph.draws_graph hclosed, hplain,
    hplain ▸ PlainGraph.draws_plainGraph hclosed⟩

-- Neither end of the failing edge is there, so the target is named.
example : (Edit.run BranchGraph.perform .empty [.addNode (), .addNode (), .addEdge 0 1 .taken,
      .addEdge 1 1 .notTaken, .addEdge 7 5 .taken, .insertNode 1 ()]) =
    ([.ok (some 0), .ok (some 1), .ok none, .ok none, .error ⟨5⟩, .ok (some 1)],
      (Edit.run BranchGraph.perform .empty [.addNode (), .addNode ()]).2) := by
  decide +kernel

end FlowAnalysis
