import FlowAnalysis.Proofs.Draft

/-! # Building a graph follows its draft

A path-sensitive graph that is what a closed draft says is so again after every
step. Only the replacement of a node takes an argument. The node that leaves
lists the other ends of all edges at its label, so striking the label from the
neighbours found there strikes it everywhere, and striking the edges at the
label from the log does the same to every list that is read off the log.
-/
namespace FlowAnalysis
variable {S : Type}

theorem Label.filter_ne_eq_self {l : Label} {xs : List Label} (h : l ∉ xs) : xs.filter (· ≠ l) = xs :=
  List.filter_eq_self.mpr fun _ hy => decide_eq_true fun he => h (he ▸ hy)

namespace Node
variable {n : Node S} {l : Label} {k : EdgeClass}

/-- Strikes a label from both lists of one class. -/
def strikeClass (l : Label) (n : Node S) (k : EdgeClass) : Node S := (n.dropPred k l).dropSucc k l

/-- Strikes a label from all lists. -/
def strike (l : Label) (n : Node S) : Node S := EdgeClass.all.foldl (strikeClass l) n

theorem dropPred_eq_self (h : l ∉ n.preds.get k) : n.dropPred k l = n := by
  have hpreds : n.preds.modify k (·.filter (· ≠ l)) = n.preds := PerClass.ext_get fun c => by
    rw [PerClass.get_modify]
    split
    · next hc =>
      subst hc
      exact Label.filter_ne_eq_self h
    · rfl
  rw [dropPred, hpreds]

theorem dropSucc_eq_self (h : l ∉ n.succs.get k) : n.dropSucc k l = n :=
  congrArg reverse (dropPred_eq_self (n := n.reverse) h)

theorem dropPred_dropPred : (n.dropPred k l).dropPred k l = n.dropPred k l :=
  dropPred_eq_self (by simp [dropPred])

theorem dropSucc_dropSucc : (n.dropSucc k l).dropSucc k l = n.dropSucc k l :=
  dropSucc_eq_self (by simp [dropSucc])

theorem preds_strikeClass (j : EdgeClass) : (strikeClass l n k).preds.get j =
    if k = j then (n.preds.get j).filter (· ≠ l) else n.preds.get j := PerClass.get_modify ..

theorem succs_strikeClass (j : EdgeClass) : (strikeClass l n k).succs.get j =
    if k = j then (n.succs.get j).filter (· ≠ l) else n.succs.get j := PerClass.get_modify ..

theorem preds_strike (k : EdgeClass) : (strike l n).preds.get k = (n.preds.get k).filter (· ≠ l) := by
  cases k <;> simp [strike, EdgeClass.all, preds_strikeClass]

theorem succs_strike (k : EdgeClass) : (strike l n).succs.get k = (n.succs.get k).filter (· ≠ l) := by
  cases k <;> simp [strike, EdgeClass.all, succs_strikeClass]

theorem strike_eq_self (h : ∀ k, l ∉ n.preds.get k ∧ l ∉ n.succs.get k) : strike l n = n := by
  refine ext_get rfl (fun k => ?_) (fun k => ?_) rfl
  · rw [preds_strike, Label.filter_ne_eq_self (h k).1]
  · rw [succs_strike, Label.filter_ne_eq_self (h k).2]

end Node

namespace BranchGraph
variable {l : Label} {gone : Node S} {nodes : LabelMap (Node S)} {k : EdgeClass}

/-- Whoever lists the label is listed by the node that leaves, at the other end of the edge. -/
def Answered (l : Label) (gone : Node S) (nodes : LabelMap (Node S)) : Prop :=
  ∀ {x : Label} {n : Node S}, nodes[x]? = some n → ∀ k,
    (l ∈ n.preds.get k → x ∈ gone.succs.get k) ∧ (l ∈ n.succs.get k → x ∈ gone.preds.get k)

theorem unlinkClass_eq_map (h : Answered l gone nodes) (k : EdgeClass) :
    unlinkClass l gone nodes k = nodes.map fun _ n => Node.strikeClass l n k := by
  have hpreds : (gone.succs.get k).foldl (fun m t => m.modify t (·.dropPred k l)) nodes =
      nodes.map fun _ n => n.dropPred k l :=
    LabelMap.foldl_modify_eq_map (fun _ => Node.dropPred_dropPred) fun x n hn hx =>
      Node.dropPred_eq_self (mt (h hn k).1 hx)
  rw [unlinkClass, hpreds, LabelMap.foldl_modify_eq_map fun _ => Node.dropSucc_dropSucc]
  · simp [Node.strikeClass]
  · intro x n hn hx
    obtain ⟨m, hm, rfl⟩ := LabelMap.getElem?_map_eq_some_iff.mp hn
    exact Node.dropSucc_eq_self (mt (h hm k).2 hx)

theorem Answered.strikeClass (h : Answered l gone nodes) (k : EdgeClass) :
    Answered l gone (nodes.map fun _ n => Node.strikeClass l n k) := by
  intro x n hn j
  obtain ⟨m, hm, rfl⟩ := LabelMap.getElem?_map_eq_some_iff.mp hn
  rw [Node.preds_strikeClass, Node.succs_strikeClass]
  obtain ⟨hp, hs⟩ := h hm j
  split
  · exact ⟨fun hl => hp (List.mem_of_mem_filter hl), fun hl => hs (List.mem_of_mem_filter hl)⟩
  · exact ⟨hp, hs⟩

/-- Striking the label where the node that leaves points to is striking it everywhere. -/
theorem unlink_eq_map (h : Answered l gone nodes) :
    unlink l gone nodes = nodes.map fun _ n => Node.strike l n := by
  have hall : ∀ (ks : List EdgeClass) {nodes : LabelMap (Node S)}, Answered l gone nodes →
      ks.foldl (unlinkClass l gone) nodes = nodes.map fun _ n => ks.foldl (Node.strikeClass l) n := by
    intro ks
    induction ks with
    | nil =>
      intro nodes _
      simp
    | cons k ks ih =>
      intro nodes h
      rw [List.foldl_cons, unlinkClass_eq_map h, ih (h.strikeClass k)]
      simp
  exact hall EdgeClass.all h

end BranchGraph

namespace Draft
variable {d : Draft S} {l x : Label} {s t : S}

theorem node_place (hx : x ≠ l) : (d.place l s).node x t = Node.strike l (d.node x t) := by
  refine Node.ext_get rfl (fun k => ?_) (fun k => ?_) rfl
  · rw [preds_node, Node.preds_strike, preds_node, sources_place hx]
  · rw [succs_node, Node.succs_strike, succs_node, targets_place hx]

/-- Nobody lists a label without a statement. -/
theorem Closed.strike_node (h : d.Closed) (hl : l ∉ d.stmts) : Node.strike l (d.node x t) = d.node x t := by
  refine Node.strike_eq_self fun k => ⟨fun hp => hl ?_, fun hs => hl ?_⟩
  · rw [preds_node, mem_sources] at hp
    exact (h _ hp).1
  · rw [succs_node, mem_targets] at hs
    exact (h _ hs).2

end Draft

namespace BranchGraph
variable {d : Draft S} {l x : Label} {s : S}

theorem answered_graph (t : S) : Answered l (d.node l t) (d.graph.nodes.erase l) := by
  intro x n hn k
  rw [Std.ExtTreeMap.getElem?_erase] at hn
  split at hn
  · cases hn
  · obtain ⟨s, _, rfl⟩ := LabelMap.getElem?_map_eq_some_iff.mp hn
    simp only [Draft.preds_node, Draft.succs_node, Draft.mem_sources, Draft.mem_targets, imp_self,
      and_self]

/-- Replacing a node leaves of the other nodes what the draft leaves of them. -/
theorem getElem?_insertNode_of_ne (hd : d.Closed) (hx : x ≠ l) :
    (insertNode d.graph l s).nodes[x]? = (d.place l s).graph.nodes[x]? := by
  have hplaced : (d.place l s).graph.nodes[x]? = d.graph.nodes[x]?.map (Node.strike l) := by
    rw [Draft.getElem?_graph, Draft.place_stmts, LabelMap.getElem?_insert_of_ne hx,
      Draft.getElem?_graph, Option.map_map]
    exact Option.map_congr fun t _ => Draft.node_place hx
  rw [hplaced, insertNode, Graph.store, LabelMap.getElem?_insert_of_ne hx]
  by_cases hl : l ∈ d.stmts
  · obtain ⟨t, ht⟩ := LabelMap.exists_of_mem hl
    simp only [Draft.getElem?_graph, ht, Option.map_some, unlink_eq_map (answered_graph t),
      Std.ExtTreeMap.getElem?_map, LabelMap.getElem?_erase_of_ne hx]
  · simp only [Draft.getElem?_graph, Std.ExtTreeMap.getElem?_eq_none hl, Option.map_none,
      Option.map_map]
    exact Option.map_congr fun t _ => (hd.strike_node hl).symm

theorem insertNode_graph (hd : d.Closed) (l : Label) (s : S) :
    insertNode d.graph l s = (d.place l s).graph := by
  have hnodes : (insertNode d.graph l s).nodes = (d.place l s).graph.nodes := by
    apply Std.ExtTreeMap.ext_getElem?
    intro x
    by_cases hx : x = l
    · subst hx
      simp [insertNode, Graph.store, Draft.getElem?_graph, Draft.place_stmts, Draft.node_place_self]
    · exact getElem?_insertNode_of_ne hd hx
  exact congrArg₂ Graph.mk hnodes Draft.nextLabel_place.symm

theorem connect_graph (a b : Label) (k : EdgeClass) :
    (d.graph.nodes.modify a (·.addSucc k b)).modify b (·.addPred k a) = (d.connect a b k).graph.nodes := by
  apply Std.ExtTreeMap.ext_getElem?
  intro x
  rw [LabelMap.getElem?_modify_eq_map, LabelMap.getElem?_modify_eq_map, Draft.getElem?_graph,
    Draft.getElem?_graph, Option.map_map, Option.map_map]
  refine Option.map_congr fun t _ => Node.ext_get ?_ (fun j => ?_) (fun j => ?_) ?_
  · simp only [Function.comp_apply]
    split <;> split <;> rfl
  · rw [Draft.preds_node, Draft.sources_connect]
    simp only [Function.comp_apply, eq_comm (a := x)]
    split <;> split <;> simp_all [Node.addSucc, Node.addPred]
  · rw [Draft.succs_node, Draft.targets_connect]
    simp only [Function.comp_apply, eq_comm (a := x)]
    split <;> split <;> simp_all [Node.addSucc, Node.addPred]
  · simp only [Function.comp_apply]
    split <;> split <;> rfl

theorem perform_graph (hd : d.Closed) (e : Edit S) :
    BranchGraph.perform d.graph e = (d.perform e).map id Draft.graph := by
  cases e with
  | addNode s => exact congrArg (Prod.mk _) (insertNode_graph hd d.nextLabel s)
  | insertNode l s => exact congrArg (Prod.mk _) (insertNode_graph hd l s)
  | addEdge a b k =>
    simp only [BranchGraph.perform, addEdge, Draft.mem_graph, Draft.perform]
    by_cases hb : b ∈ d.stmts
    · by_cases ha : a ∈ d.stmts
      · simp only [hb, ha, not_true_eq_false, if_false, connect_graph]
        rfl
      · simp only [hb, ha, not_true_eq_false, not_false_eq_true, if_false, if_true]
        rfl
    · simp only [hb, not_false_eq_true, if_true]
      rfl

/-- What its draft says of a graph. -/
theorem draws_graph (hd : d.Closed) : Draws d.graph d := by
  have hnode : ∀ {l n}, d.graph.nodes[l]? = some n → ∃ s, d.node l s = n := fun h => by
    obtain ⟨s, _, hs⟩ := LabelMap.getElem?_map_eq_some_iff.mp h
    exact ⟨s, hs⟩
  constructor
  case stmt =>
    intro l
    rw [Draft.getElem?_graph, Option.map_map]
    exact congrFun Option.map_id_fun' _
  case label =>
    intro l n h
    obtain ⟨s, rfl⟩ := hnode h
    rfl
  case succs =>
    intro l n h k
    obtain ⟨s, rfl⟩ := hnode h
    exact Draft.succs_node
  case preds =>
    intro l n h k
    obtain ⟨s, rfl⟩ := hnode h
    exact Draft.preds_node
  case inside =>
    intro l n h x hx
    obtain ⟨s, rfl⟩ := hnode h
    obtain ⟨k, hp | hs⟩ := Node.mem_neighbours.mp hx
    · rw [Draft.preds_node, Draft.mem_sources] at hp
      exact Draft.mem_graph.mpr (hd _ hp).1
    · rw [Draft.succs_node, Draft.mem_targets] at hs
      exact Draft.mem_graph.mpr (hd _ hs).2

end BranchGraph
end FlowAnalysis
