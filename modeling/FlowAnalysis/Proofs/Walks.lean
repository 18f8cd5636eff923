import FlowAnalysis.Proofs.Reversal

/-! # Walks through built graphs

A graph that was built and reversed in any order keeps the contract, since its
draft writes every edge down at both ends. Its edges may therefore be followed
from either end, and a walk through the reversed graph is a walk through the
graph the other way round.
-/
namespace FlowAnalysis
variable {S : Type}

namespace Draft
variable {d : Draft S} {entries ids : List Label}

theorem valid_graph (hd : d.Closed) (hids : ∀ l, l ∈ ids ↔ l ∈ d.stmts)
    (hentries : ∀ l ∈ entries, l ∈ d.stmts) : FlowGraph.Valid ⟨entries, ids, d.graph.nodes⟩ := by
  have hdraws := BranchGraph.draws_graph hd
  have hmem : ∀ l, l ∈ ids ↔ l ∈ d.graph.nodes := fun l => (hids l).trans mem_graph.symm
  refine ⟨hmem, hdraws.label, fun hl => (hids _).mpr (hentries _ hl), ?_, ?_⟩
  · intro l n hn x hx
    exact (hmem x).mpr (hdraws.inside hn x hx)
  · intro a b m n hm hn k
    rw [hdraws.succs hm, hdraws.preds hn, mem_targets, mem_sources]

end Draft

namespace PlainGraph
variable {g h : PlainGraph S} {a b c l : Label} {n : PlainNode S} {ls entries : List Label}

theorem mem_labels : l ∈ g.labels ↔ l ∈ g.nodes := Std.ExtTreeMap.mem_keys

theorem Reachable.valid (hg : g.Reachable) (hentries : ∀ l ∈ entries, l ∈ g.nodes) :
    FlowGraph.Valid ⟨entries, g.labels, g.classified⟩ := by
  obtain ⟨d, hd, rfl⟩ := hg.exists_draft
  have hmem : ∀ l, l ∈ d.plainGraph.nodes ↔ l ∈ d.stmts := fun l => Std.ExtTreeMap.mem_map
  have hnodes : d.plainGraph.classified = d.unclassified.graph.nodes :=
    congrArg Graph.nodes Draft.branching_plainGraph
  rw [hnodes]
  exact Draft.valid_graph hd.unclassified (fun l => mem_labels.trans (hmem l))
    fun l hl => (hmem l).mp (hentries l hl)

def HasEdge (g : PlainGraph S) (a b : Label) : Prop := ∃ m, g.nodes[a]? = some m ∧ b ∈ m.succs

theorem Reachable.hasEdge_iff (hg : g.Reachable) (hn : g.nodes[b]? = some n) :
    g.HasEdge a b ↔ a ∈ n.preds := by
  have hnone : ∀ l ∈ ([] : List Label), l ∈ g.nodes := by simp
  have hvalid := hg.valid hnone
  have hclassified : g.classified[b]? = some n.classify := by rw [getElem?_classified, hn, Option.map_some]
  refine Iff.trans ?_ (hvalid.hasEdge_iff hclassified (k := .notTaken))
  constructor
  · rintro ⟨m, hm, hb⟩
    exact ⟨m.classify, by rw [getElem?_classified, hm, Option.map_some], hb⟩
  · rintro ⟨_, hfound, hb⟩
    obtain ⟨m, hm, rfl⟩ := LabelMap.getElem?_map_eq_some_iff.mp hfound
    exact ⟨m, hm, hb⟩

theorem Reachable.hasEdge_mem (hg : g.Reachable) (he : g.HasEdge a b) : a ∈ g.nodes ∧ b ∈ g.nodes := by
  obtain ⟨m, hm, hb⟩ := he
  obtain ⟨d, hd, rfl⟩ := hg.exists_draft
  exact ⟨LabelMap.mem_of_getElem? hm,
    (draws_plainGraph hd).inside hm b (List.mem_append_right _ hb)⟩

theorem mem_reverse : l ∈ g.reverse.nodes ↔ l ∈ g.nodes := Std.ExtTreeMap.mem_map

theorem labels_reverse : g.reverse.labels = g.labels := Std.ExtTreeMap.keys_map

theorem Reachable.hasEdge_reverse (hg : g.Reachable) : g.reverse.HasEdge a b ↔ g.HasEdge b a := by
  constructor
  · rintro ⟨_, hfound, hb⟩
    obtain ⟨m, hm, rfl⟩ := LabelMap.getElem?_map_eq_some_iff.mp hfound
    exact (hg.hasEdge_iff hm).mpr hb
  · intro he
    obtain ⟨n, hn⟩ := LabelMap.exists_of_mem (hg.hasEdge_mem he).2
    exact ⟨_, LabelMap.getElem?_map_eq_some_iff.mpr ⟨n, hn, rfl⟩, (hg.hasEdge_iff hn).mp he⟩

/-- A walk from one label to another, with the labels that it meets, both ends included. -/
inductive Walk (g : PlainGraph S) (a : Label) : List Label → Label → Prop
  | here : a ∈ g.nodes → Walk g a [a] a
  | along {ls : List Label} {b c : Label} : Walk g a ls b → g.HasEdge b c → Walk g a (ls ++ [c]) c

namespace Walk

theorem cons (h : g.Walk b ls c) (ha : a ∈ g.nodes) (he : g.HasEdge a b) : g.Walk a (a :: ls) c := by
  induction h with
  | here => exact (Walk.here ha).along he
  | along _ hc ih => exact ih.along hc

/-- A walk ends where it begins, or it takes an edge first. -/
theorem first (hg : g.Reachable) (h : g.Walk a ls c) :
    ls = [a] ∧ a = c ∨ ∃ b rest, ls = a :: rest ∧ g.HasEdge a b ∧ g.Walk b rest c := by
  induction h with
  | here => exact .inl ⟨rfl, rfl⟩
  | along _ he ih =>
    rcases ih with ⟨rfl, rfl⟩ | ⟨b, rest, rfl, hfirst, hw⟩
    · exact .inr ⟨_, _, rfl, he, .here (hg.hasEdge_mem he).2⟩
    · exact .inr ⟨b, _, rfl, hfirst, hw.along he⟩

/-- Where every edge leads back, so does every walk. -/
theorem back (hnodes : ∀ l ∈ g.nodes, l ∈ h.nodes) (hedge : ∀ {a b}, g.HasEdge a b → h.HasEdge b a)
    (hmem : ∀ {a b}, g.HasEdge a b → b ∈ h.nodes) (hw : g.Walk a ls c) : h.Walk c ls.reverse a := by
  induction hw with
  | here ha => exact .here (hnodes _ ha)
  | along _ he ih =>
    rw [List.reverse_append]
    exact ih.cons (hmem he) (hedge he)

theorem reverse_iff (hg : g.Reachable) : g.reverse.Walk a ls c ↔ g.Walk c ls.reverse a := by
  constructor
  · exact back (fun _ => mem_reverse.mp) hg.hasEdge_reverse.mp
      fun he => (hg.hasEdge_mem (hg.hasEdge_reverse.mp he)).1
  · intro hw
    have hback : g.reverse.Walk a ls.reverse.reverse c := back (fun _ => mem_reverse.mpr)
      hg.hasEdge_reverse.mpr (fun he => mem_reverse.mpr (hg.hasEdge_mem he).2) hw
    rwa [List.reverse_reverse] at hback

end Walk
end PlainGraph
end FlowAnalysis
