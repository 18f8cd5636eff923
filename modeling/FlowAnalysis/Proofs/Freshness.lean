import FlowAnalysis.Proofs.Classification

/-! # Unnamed nodes get unused labels

The next label follows every stored label, and so it is unused, until the last
label of all is stored. An unnamed node is then new: nothing that was there
changes. Once the last label is stored no label follows it, and the next unnamed
node takes the place of the node under that label.
-/
namespace FlowAnalysis
variable {S : Type}

/-- A graph has got one more node, and the others are what they were. -/
structure Graph.Gains {N : Type} (before after : Graph N) (l : Label) (n : N) : Prop where
  unused : l ∉ before.nodes
  size : after.size = before.size + 1
  node : after.node? l = some n
  others : ∀ x ∈ before.nodes, after.node? x = before.node? x

namespace Draft
variable {d : Draft S} {l : Label} {s : S}

/-- While the last label is free, the next label lies above all that are stored. -/
theorem lt_nextLabel (hlast : Label.last ∉ d.stmts) (hl : l ∈ d.stmts) : l < d.nextLabel := by
  obtain ⟨m, hm⟩ : ∃ m, d.stmts.maxKey? = some m := by
    rw [← Option.isSome_iff_exists, Std.ExtTreeMap.isSome_maxKey?_iff_ne_empty]
    intro he
    simp [he] at hl
  obtain ⟨hmem, hmax⟩ := Std.ExtTreeMap.maxKey?_eq_some_iff_mem_and_forall.mp hm
  have hlm : l ≤ m := Std.isLE_compare.mp (hmax l hl)
  have hnext : d.nextLabel = m.following := by rw [nextLabel, hm]; rfl
  rw [hnext]
  exact UInt64.lt_of_le_of_lt hlm (Label.lt_following fun he => hlast (he ▸ hmem))

theorem nextLabel_eq_last (hlast : Label.last ∈ d.stmts) : d.nextLabel = Label.last := by
  have hm : d.stmts.maxKey? = some Label.last :=
    Std.ExtTreeMap.maxKey?_eq_some_iff_mem_and_forall.mpr
      ⟨hlast, fun l _ => Std.isLE_compare.mpr l.le_last⟩
  rw [nextLabel, hm]
  rfl

theorem nextLabel_mem_iff : d.nextLabel ∈ d.stmts ↔ Label.last ∈ d.stmts := by
  constructor
  · intro h
    by_contra hlast
    exact UInt64.lt_irrefl _ (lt_nextLabel hlast h)
  · intro h
    rwa [nextLabel_eq_last h]

/-- Placing a statement at a label without one leaves the other nodes alone. -/
theorem gains_place (hd : d.Closed) (hl : l ∉ d.stmts) :
    d.graph.Gains (d.place l s).graph l { label := l, stmt := s } := by
  constructor
  case unused => exact fun h => hl (mem_graph.mp h)
  case size =>
    have hsize : (d.place l s).stmts.size = d.stmts.size + 1 := by
      rw [place_stmts, Std.ExtTreeMap.size_insert, if_neg (by simpa using hl)]
    simpa [Graph.size, graph, Std.ExtTreeMap.size_map] using hsize
  case node =>
    rw [Graph.node?, getElem?_graph, place_stmts, Std.ExtTreeMap.getElem?_insert_self, Option.map_some,
      node_place_self]
  case others =>
    intro x hx
    have hne : x ≠ l := fun he => hl (he ▸ mem_graph.mp hx)
    rw [Graph.node?, Graph.node?, getElem?_graph, getElem?_graph, place_stmts,
      LabelMap.getElem?_insert_of_ne hne]
    refine Option.map_congr fun t _ => ?_
    rw [node_place hne, hd.strike_node hl]

theorem gains_addNode_iff (hd : d.Closed) :
    d.graph.Gains (BranchGraph.addNode d.graph s).2 d.nextLabel { label := d.nextLabel, stmt := s } ↔
      Label.last ∉ d.graph.nodes := by
  rw [mem_graph, ← nextLabel_mem_iff, BranchGraph.addNode, BranchGraph.insertNode_graph hd]
  exact ⟨fun h hl => h.unused (mem_graph.mpr hl), gains_place hd⟩

end Draft

namespace PlainGraph
variable {g h : PlainGraph S} {l : Label} {s : S}

theorem gains_branching_iff {n : PlainNode S} :
    g.branching.Gains h.branching l n.classify ↔ Graph.Gains g h l n := by
  have hclassify : Function.Injective (PlainNode.classify (S := S)) :=
    Function.LeftInverse.injective fun n => Node.plain_classify n
  have hnode : ∀ (g : PlainGraph S) (x : Label),
      g.branching.node? x = (g.node? x).map PlainNode.classify := fun _ _ => getElem?_classified
  have hsize : ∀ g : PlainGraph S, g.branching.size = g.size := fun _ => Std.ExtTreeMap.size_map
  have hmem : ∀ (g : PlainGraph S) (x : Label), x ∈ g.branching.nodes ↔ x ∈ g.nodes :=
    fun _ _ => mem_classified
  constructor
  · rintro ⟨hunused, hgrown, hnew, hothers⟩
    rw [hnode, Option.map_eq_some_iff] at hnew
    obtain ⟨m, hm, he⟩ := hnew
    refine ⟨mt (hmem g l).mpr hunused, by rw [← hsize, ← hsize, hgrown], hclassify he ▸ hm, ?_⟩
    intro x hx
    have hkept := hothers x ((hmem g x).mpr hx)
    rw [hnode, hnode] at hkept
    exact Option.map_injective hclassify hkept
  · rintro ⟨hunused, hgrown, hnew, hothers⟩
    refine ⟨mt (hmem g l).mp hunused, by rw [hsize, hsize, hgrown], by rw [hnode, hnew]; rfl, ?_⟩
    intro x hx
    rw [hnode, hnode, hothers x ((hmem g x).mp hx)]

end PlainGraph

theorem Draft.gains_plain_addNode_iff {d : Draft S} {s : S} (hd : d.Closed) :
    Graph.Gains d.plainGraph (PlainGraph.addNode d.plainGraph s).2 d.nextLabel
        { label := d.nextLabel, stmt := s } ↔ Label.last ∉ d.plainGraph.nodes := by
  have hadded : (PlainGraph.addNode d.plainGraph s).2.branching =
      (BranchGraph.addNode d.unclassified.graph s).2 := by
    rw [← branching_plainGraph]
    exact (PlainGraph.insertNode_branching d.nextLabel s).symm
  have hlast : Label.last ∈ d.plainGraph.nodes ↔ Label.last ∈ d.unclassified.graph.nodes := by
    rw [← branching_plainGraph]
    exact PlainGraph.mem_classified.symm
  rw [← PlainGraph.gains_branching_iff, hadded, branching_plainGraph, hlast]
  exact gains_addNode_iff hd.unclassified

namespace Edit

/-- The same steps lead to graphs of both kinds that have one draft. -/
theorem exists_draft (es : List (Edit S)) : ∃ d : Draft S, d.Closed ∧
    (run BranchGraph.perform .empty es).2 = d.graph ∧
    (run PlainGraph.perform .empty es).2 = d.plainGraph := by
  refine ⟨(run Draft.perform {} es).2, run_preserves Draft.Closed.perform Draft.closed_empty es, ?_, ?_⟩
  · rw [← Draft.graph_empty,
      run_map Draft.graph BranchGraph.perform_graph Draft.Closed.perform Draft.closed_empty es]
    rfl
  · rw [← Draft.plainGraph_empty,
      run_map Draft.plainGraph PlainGraph.perform_plainGraph Draft.Closed.perform Draft.closed_empty es]
    rfl

/-- Whatever steps were taken before, an unnamed node is new and leaves the other nodes alone as long
as the last label is free, and only so long. -/
theorem run_addNode_gains_iff (es : List (Edit S)) (s : S) :
    let branching := (run BranchGraph.perform .empty es).2
    let plain := (run PlainGraph.perform .empty es).2
    (branching.Gains (branching.addNode s).2 (branching.addNode s).1
      { label := (branching.addNode s).1, stmt := s } ↔ Label.last ∉ branching.nodes) ∧
    (plain.Gains (plain.addNode s).2 (plain.addNode s).1
      { label := (plain.addNode s).1, stmt := s } ↔ Label.last ∉ plain.nodes) := by
  intro branching plain
  obtain ⟨d, hd, hbranching, hplain⟩ := exists_draft es
  constructor
  · rw [show branching = d.graph from hbranching]
    exact Draft.gains_addNode_iff hd
  · rw [show plain = d.plainGraph from hplain]
    exact Draft.gains_plain_addNode_iff hd

/-- Under the last label an unnamed node drives out the one that is there, in graphs of both kinds. -/
theorem run_addNode_replaces_last :
    let branching := (run BranchGraph.perform .empty [.insertNode Label.last "kept"]).2
    let plain := (run PlainGraph.perform .empty [.insertNode Label.last "kept"]).2
    ¬ branching.Gains (branching.addNode "new").2 (branching.addNode "new").1
      { label := (branching.addNode "new").1, stmt := "new" } ∧
    ¬ plain.Gains (plain.addNode "new").2 (plain.addNode "new").1
      { label := (plain.addNode "new").1, stmt := "new" } ∧
    (branching.addNode "new").2.nodes.toList = [(Label.last, { label := Label.last, stmt := "new" })] := by
  intro branching plain
  refine ⟨fun h => ?_, fun h => ?_, ?_⟩
  · exact h.unused (by decide +kernel)
  · exact h.unused (by decide +kernel)
  · decide +kernel

end Edit
end FlowAnalysis
