import Mathlib.Data.List.Basic
import FlowAnalysis.Proofs.Acceptance

/-! # Both ends list an edge

The lists of targets of all nodes are read as one list of edges, and so are the
lists of sources, against the direction of the edges. Read like that, what a
label lists in a class is what its edges in that class lead to. In a graph that
was built the two readings are rearrangements of one another and, before the
graph is turned around, of the log of the edges that were added. So an edge is
at one end as often as at the other, parallel edges and loops included.
-/
namespace FlowAnalysis
variable {S : Type}

namespace Edge

/-- The edge in the other direction. -/
def flip (e : Edge) : Edge := ⟨e.target, e.source, e.cls⟩

theorem perm_map_flip {ds es : List Edge} (h : ds.Perm (es.map flip)) : (ds.map flip).Perm es := by
  have hback := h.map flip
  rwa [List.map_map, show flip ∘ flip = id from rfl, List.map_id] at hback

/-- The order in which the nodes list their edges: ascending labels, and of each label the taken edges
after the others. -/
def Precedes (d e : Edge) : Prop := d.source < e.source ∨ d.source = e.source ∧ (d.cls = .taken → e.cls = .taken)

/-- An edge occurs in a list as often as its target among those of the edges with its source and class. -/
theorem count_map_target (log : List Edge) (e : Edge) :
    ((log.filter fun d => d.source = e.source ∧ d.cls = e.cls).map (·.target)).count e.target = log.count e := by
  rw [List.count_eq_countP, List.countP_map, List.countP_filter, List.count_eq_countP]
  apply List.countP_congr
  intro d _
  obtain ⟨a, b, k⟩ := d
  obtain ⟨a', b', k'⟩ := e
  simp only [Function.comp_apply, Bool.and_eq_true, beq_iff_eq, decide_eq_true_eq, Edge.mk.injEq]
  exact ⟨fun ⟨hb, ha, hk⟩ => ⟨ha, hb, hk⟩, fun ⟨ha, hb, hk⟩ => ⟨hb, ha, hk⟩⟩

end Edge

namespace LabelMap
variable {α β : Type} {side : Node S → PerClass (List Label)} {nodes : LabelMap (Node S)} {l : Label}
  {k : EdgeClass} {e : Edge}

/-- What is listed at one label only, in the order of the labels, is what its value lists. -/
theorem flatMap_toList_at (m : LabelMap α) (l : Label) (f : α → List β) :
    (m.toList.flatMap fun e => if e.1 = l then f e.2 else []) = m[l]?.elim [] f := by
  have hnil : ∀ es : List (Label × α), (∀ e ∈ es, e.1 ≠ l) →
      (es.flatMap fun e => if e.1 = l then f e.2 else []) = [] := fun es hes =>
    List.flatMap_eq_nil_iff.mpr fun e he => if_neg (hes e he)
  cases hl : m[l]? with
  | none =>
    apply hnil
    intro e he heq
    have hfound := Std.ExtTreeMap.mem_toList_iff_getElem?_eq_some.mp he
    rw [heq, hl] at hfound
    exact nomatch hfound
  | some a =>
    obtain ⟨as, bs, hsplit⟩ := List.append_of_mem (Std.ExtTreeMap.mem_toList_iff_getElem?_eq_some.mpr hl)
    have hdistinct := Std.ExtTreeMap.distinct_keys_toList (t := m)
    rw [hsplit, List.pairwise_append, List.pairwise_cons] at hdistinct
    obtain ⟨_, ⟨hafter, _⟩, hbefore⟩ := hdistinct
    rw [hsplit, List.flatMap_append, List.flatMap_cons, hnil as, hnil bs, if_pos rfl, List.append_nil]
    · rfl
    · exact fun e he heq => hafter e he (Std.compare_eq_iff_eq.mpr heq.symm)
    · exact fun e he heq => hbefore e he _ List.mem_cons_self (Std.compare_eq_iff_eq.mpr heq)

/-- The entries of the lists on one side of the nodes, as edges from the label that has the list. -/
def entries (side : Node S → PerClass (List Label)) (nodes : LabelMap (Node S)) : List Edge :=
  nodes.toList.flatMap fun e => EdgeClass.all.flatMap fun k => ((side e.2).get k).map fun t => ⟨e.1, t, k⟩

/-- The list of a label in a class; a label without a node has empty lists. -/
def listed (side : Node S → PerClass (List Label)) (nodes : LabelMap (Node S)) (l : Label)
    (k : EdgeClass) : List Label :=
  nodes[l]?.elim [] fun n => (side n).get k

/-- The entries of one list, among all entries, are that list in its order. -/
theorem map_filter_entries :
    ((entries side nodes).filter fun e => e.source = l ∧ e.cls = k).map (·.target) = listed side nodes l k := by
  rw [listed, ← flatMap_toList_at, entries, List.filter_flatMap, List.map_flatMap]
  congr 1
  funext e
  by_cases he : e.1 = l <;> cases k <;> simp [EdgeClass.all, List.filter_map, Function.comp_def, he]

theorem count_entries : (entries side nodes).count e = (listed side nodes e.source e.cls).count e.target := by
  rw [← Edge.count_map_target, map_filter_entries]

theorem pairwise_entries : (entries side nodes).Pairwise Edge.Precedes := by
  have hsame : ∀ {l : Label} {k : EdgeClass} {ts : List Label},
      (ts.map fun t => (⟨l, t, k⟩ : Edge)).Pairwise Edge.Precedes := fun {l k ts} => by
    rw [List.pairwise_map]
    exact List.pairwise_of_forall fun _ _ => .inr ⟨rfl, id⟩
  refine List.pairwise_flatMap.mpr ⟨fun e _ => ?_, ?_⟩
  · simp only [EdgeClass.all, List.flatMap_cons, List.flatMap_nil, List.append_nil]
    refine List.pairwise_append.mpr ⟨hsame, hsame, fun d hd d' hd' => ?_⟩
    obtain ⟨_, _, rfl⟩ := List.mem_map.mp hd
    obtain ⟨_, _, rfl⟩ := List.mem_map.mp hd'
    exact .inr ⟨rfl, fun _ => rfl⟩
  · refine Std.ExtTreeMap.ordered_keys_toList.imp fun {a b} hab d hd d' hd' => ?_
    obtain ⟨k, _, hd⟩ := List.mem_flatMap.mp hd
    obtain ⟨_, _, rfl⟩ := List.mem_map.mp hd
    obtain ⟨k', _, hd'⟩ := List.mem_flatMap.mp hd'
    obtain ⟨_, _, rfl⟩ := List.mem_map.mp hd'
    exact .inl (Std.compare_eq_lt.mp hab)

/-- Reading every node the other way round exchanges its sides. -/
theorem entries_reverse :
    entries side (nodes.map fun _ n => n.reverse) = entries (fun n => side n.reverse) nodes := by
  rw [entries, Std.ExtTreeMap.toList_map, List.flatMap_map]
  rfl

end LabelMap

namespace Draft
variable {d : Draft S} {l : Label} {k : EdgeClass}
open LabelMap (entries listed)

/-- A list is read off the node, and there is nothing to read where there is no statement. -/
theorem listed_graph {side : Node S → PerClass (List Label)} {xs : List Label}
    (hnode : ∀ s, (side (d.node l s)).get k = xs) (hnil : l ∉ d.stmts → xs = []) :
    listed side d.graph.nodes l k = xs := by
  rw [listed, getElem?_graph]
  by_cases hl : l ∈ d.stmts
  · obtain ⟨s, hs⟩ := LabelMap.exists_of_mem hl
    rw [hs]
    exact hnode s
  · rw [Std.ExtTreeMap.getElem?_eq_none hl, hnil hl]
    rfl

theorem Closed.listed_succs (hd : d.Closed) : listed Node.succs d.graph.nodes l k = d.targets l k :=
  listed_graph (fun _ => succs_node) fun hl => List.eq_nil_iff_forall_not_mem.mpr fun _ hx =>
    hl (hd _ (mem_targets.mp hx)).1

theorem Closed.listed_preds (hd : d.Closed) : listed Node.preds d.graph.nodes l k = d.sources l k :=
  listed_graph (fun _ => preds_node) fun hl => List.eq_nil_iff_forall_not_mem.mpr fun _ hx =>
    hl (hd _ (mem_sources.mp hx)).2

/-- The targets of all nodes are the logged edges, ordered by their sources. -/
theorem Closed.entries_succs (hd : d.Closed) : (entries Node.succs d.graph.nodes).Perm d.log := by
  rw [List.perm_iff_count]
  intro e
  rw [LabelMap.count_entries, hd.listed_succs, targets, Edge.count_map_target]

/-- The sources of all nodes are the logged edges as well, ordered by their targets. -/
theorem Closed.entries_preds (hd : d.Closed) : ((entries Node.preds d.graph.nodes).map Edge.flip).Perm d.log := by
  apply Edge.perm_map_flip
  rw [List.perm_iff_count]
  intro e
  rw [LabelMap.count_entries, hd.listed_preds, ← Edge.count_map_target, sources, List.filter_map, List.map_map]
  rfl

end Draft

/-- In a graph that was built every entry among the targets has one among the sources, and the other way
round. -/
theorem FlowGraph.Built.entries_perm {g : FlowGraph S} (h : g.Built) :
    (LabelMap.entries Node.succs g.nodes).Perm ((LabelMap.entries Node.preds g.nodes).map Edge.flip) := by
  induction h with
  | branching hg _ =>
    obtain ⟨d, hd, rfl⟩ := hg.exists_draft
    exact hd.entries_succs.trans hd.entries_preds.symm
  | plain hg _ =>
    obtain ⟨d, hd, rfl⟩ := hg.exists_draft
    have hnodes : d.plainGraph.classified = d.unclassified.graph.nodes :=
      congrArg Graph.nodes Draft.branching_plainGraph
    rw [hnodes]
    exact hd.unclassified.entries_succs.trans hd.unclassified.entries_preds.symm
  | @reverse g _ ih =>
    rw [FlowGraph.reverse, LabelMap.entries_reverse, LabelMap.entries_reverse]
    exact (Edge.perm_map_flip ih).symm

end FlowAnalysis
