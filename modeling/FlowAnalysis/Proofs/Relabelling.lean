import FlowAnalysis.Proofs.Simulation

/-! # Other labels, other lists

Labels are names and lists of labels denote sets. A problem that reads the same
graph under other names, listed in another way, visits the nodes in another
order, merges the same facts in another order, and may evaluate more or less
often. The two problems simulate each other along the renaming, in the one
direction from a label to its new name and in the other back to the only label
with that name.
-/
namespace FlowAnalysis
variable {S T F : Type}

namespace Problem

/-- The second problem is the first one under other labels. In either graph the lists may hold their
labels in any order and any number of times. In accepted graphs the edges fix the successors and the
predecessors alike. -/
structure Relabels (p : Problem S F) (p' : Problem T F) (r : Label → Label) : Prop where
  merge : p'.merge = p.merge
  initial : p'.initial = p.initial
  boundary : p'.boundary = p.boundary
  steady : p'.Steady
  injOn : Set.InjOn r {c | c ∈ p.graph.nodes}
  ids : ∀ l, l ∈ p'.graph.ids ↔ ∃ c ∈ p.graph.ids, r c = l
  entries : ∀ l, l ∈ p'.graph.entries ↔ ∃ c ∈ p.graph.entries, r c = l
  edges : ∀ {a b : Label}, a ∈ p.graph.nodes → b ∈ p.graph.nodes → ∀ k,
    p'.graph.HasEdge k (r a) (r b) ↔ p.graph.HasEdge k a b
  transfer : ∀ {c : Label} {n : Node S} {n' : Node T}, p.graph.nodes[c]? = some n →
    p'.graph.nodes[r c]? = some n' → p'.transfer n' = p.transfer n

/-- A label of the problem and its new name. -/
def Renamed (p : Problem S F) (r : Label → Label) (c c' : Label) : Prop := c ∈ p.graph.nodes ∧ r c = c'

variable {p : Problem S F} {p' : Problem T F} {r : Label → Label} {c c' : Label}

namespace Relabels

theorem mem_nodes_iff (h : p.Relabels p' r) (hv : p.graph.Valid) (hv' : p'.graph.Valid) :
    c' ∈ p'.graph.nodes ↔ ∃ c, p.Renamed r c c' := by
  simp only [← hv'.mem_ids, h.ids, hv.mem_ids, Renamed]

theorem isMonotone (h : p.Relabels p' r) (hv : p.graph.Valid) (hv' : p'.graph.Valid) (hm : p.IsMonotone) :
    p'.IsMonotone := by
  refine ⟨h.steady, h.merge ▸ hm.semilattice, ?_, ?_⟩
  · rw [h.merge, h.initial]
    exact hm.initial_below
  · intro l n' hn' k x y a hxy ha
    obtain ⟨c, hc, rfl⟩ := (h.mem_nodes_iff hv hv').mp (LabelMap.mem_of_getElem? hn')
    obtain ⟨n, hn⟩ := LabelMap.exists_of_mem hc
    rw [h.merge] at hxy ⊢
    rw [h.transfer hn hn'] at ha ⊢
    exact hm.flowsUp hn hxy ha

theorem simulatedBy (h : p.Relabels p' r) (hv : p.graph.Valid) (hv' : p'.graph.Valid) (hm : p.IsMonotone) :
    p.SimulatedBy p' (p.Renamed r) where
  merge := h.merge
  boundary := h.boundary ▸ hm.semilattice.idem _
  mem := fun hR _ => (h.mem_nodes_iff hv hv').mpr ⟨_, hR⟩
  entry := fun hR hc => (h.entries _).mpr ⟨_, hc, hR.2⟩
  edge := by
    rintro k a c _ ⟨hc, rfl⟩ he
    exact ⟨r a, ⟨he.source_mem, rfl⟩, (h.edges he.source_mem hc k).mpr he⟩
  transfer := by
    rintro c _ n n' ⟨_, rfl⟩ hn hn' k x a ha
    exact ⟨a, h.transfer hn hn' ▸ ha, hm.semilattice.idem a⟩

/-- No two labels share a new name, so that every way under the new names is the way of one label. -/
theorem simulatedBy_flip (h : p.Relabels p' r) (hv : p.graph.Valid) (hv' : p'.graph.Valid)
    (hm : p.IsMonotone) : p'.SimulatedBy p (flip (p.Renamed r)) where
  merge := h.merge.symm
  boundary := by
    rw [h.boundary, h.merge]
    exact hm.semilattice.idem _
  mem := fun hR _ => hR.1
  entry := by
    rintro _ c ⟨hc, rfl⟩ he
    obtain ⟨b, hb, hbc⟩ := (h.entries _).mp he
    exact h.injOn ((hv.mem_ids b).mp (hv.entry_mem hb)) hc hbc ▸ hb
  edge := by
    rintro k _ _ c ⟨hc, rfl⟩ he
    obtain ⟨a, ha, rfl⟩ := (h.mem_nodes_iff hv hv').mp he.source_mem
    exact ⟨a, ⟨ha, rfl⟩, (h.edges ha hc k).mp he⟩
  transfer := by
    rintro _ c n' n ⟨_, rfl⟩ hn' hn k x a ha
    rw [h.transfer hn hn'] at ha
    rw [h.merge]
    exact ⟨a, ha, hm.semilattice.idem a⟩

end Relabels

variable [BEq F] [LawfulBEq F] {settings settings' : Settings} {steps steps' : Nat}

/-- What a settled run leaves at a label does not depend on how the labels are named or on how the
labels, the entries and the neighbours are listed, whatever the visiting orders and the bounds. -/
theorem analyze_relabelled (h : p.Relabels p' r) (hv : p.graph.violation? = .ok none)
    (hv' : p'.graph.violation? = .ok none) (hm : p.IsMonotone)
    (hend : (p.analyze settings steps).ending = .settled)
    (hend' : (p'.analyze settings' steps').ending = .settled) (hc : c ∈ p.graph.nodes) :
    (p.analyze settings steps).flows.SameFacts (p'.analyze settings' steps').flows c (r c) := by
  have hvalid := FlowGraph.violation?_eq_ok_none_iff.mp hv
  have hvalid' := FlowGraph.violation?_eq_ok_none_iff.mp hv'
  have hto := h.simulatedBy hvalid hvalid' hm
  have hback := h.simulatedBy_flip hvalid hvalid' hm
  exact hto.sameFacts hback hv hv' hm (h.isMonotone hvalid hvalid' hm) hend hend' ⟨hc, rfl⟩ hc

theorem reaching_relabels {g g' : FlowGraph Unit} {ls ls' : List Label} (hr : Function.Injective r)
    (hv : g.Valid) (hv' : g'.Valid) (hids : g'.ids.toFinset = g.ids.toFinset.image r)
    (hentries : g'.entries.toFinset = g.entries.toFinset.image r)
    (hedges : g'.edges = g.edges.image fun e => ⟨r e.source, r e.target, e.cls⟩)
    (hls : ls'.toFinset = ls.toFinset.image r) : (reaching g ls).Relabels (reaching g' ls') r := by
  have hread : ∀ {xs xs' : List Label}, xs'.toFinset = xs.toFinset.image r →
      ∀ l, l ∈ xs' ↔ ∃ c ∈ xs, r c = l := by
    intro xs xs' h l
    rw [← List.mem_toFinset, h, Finset.mem_image]
    simp only [List.mem_toFinset]
  refine ⟨rfl, rfl, rfl, fun _ => rfl, hr.injOn, hread hids, hread hentries, ?_, ?_⟩
  · intro a b _ _ k
    have hedge : (⟨r a, r b, k⟩ : Edge) ∈ g'.edges ↔ (⟨a, b, k⟩ : Edge) ∈ g.edges := by
      rw [hedges, Finset.mem_image]
      constructor
      · rintro ⟨e, he, heq⟩
        obtain ⟨hs, ht, rfl⟩ := Edge.mk.inj heq
        exact hr hs ▸ hr ht ▸ he
      · exact fun he => ⟨_, he, rfl⟩
    rwa [FlowGraph.mem_edges, FlowGraph.mem_edges] at hedge
  · intro c n n' hn hn'
    refine transfer_reaching ?_
    rw [hv.label_eq hn, hv'.label_eq hn', hread hls]
    exact ⟨fun ⟨_, ha, heq⟩ => hr heq ▸ ha, fun ha => ⟨_, ha, rfl⟩⟩

/-- The loop with its labels counted from above. Its edges are listed from the other side and some of
them twice. -/
def relabelledLoop : FlowGraph Unit :=
  { FlowGraph.ofNodes [7, 7] [
      { label := 7, succs := ⟨[6, 6], [5]⟩, stmt := () },
      { label := 6, preds := ⟨[7], [6]⟩, succs := ⟨[5], [6]⟩, stmt := () },
      { label := 5, preds := ⟨[6], [7, 7]⟩, stmt := () }] with ids := [5, 6, 7, 5] }

/-- In the order of the new labels the end of the loop comes first and has to be evaluated again. -/
theorem analyze_relabelled_loop :
    ((reaching .loop [1]).analyze {} 20).visits = [0, 1, 2] ∧
    ((reaching relabelledLoop [6]).analyze ⟨3, .label⟩ 20).visits = [5, 6, 5, 7] ∧
    ((reaching .loop [1]).analyze {} 20).flows.SameFacts
      ((reaching relabelledLoop [6]).analyze ⟨3, .label⟩ 20).flows 2 5 := by
  have hv := FlowGraph.loop_accepted
  have hv' : relabelledLoop.violation? = .ok none := rfl
  have hr : Function.Injective (7 - · : Label → Label) := fun _ _ => (UInt64.sub_right_inj 7).mp
  have hrelabels : (reaching .loop [1]).Relabels (reaching relabelledLoop [6]) (7 - ·) :=
    reaching_relabels hr (FlowGraph.violation?_eq_ok_none_iff.mp hv)
      (FlowGraph.violation?_eq_ok_none_iff.mp hv') (by decide) (by decide) (by decide) (by decide)
  refine ⟨by decide +kernel, by decide +kernel, ?_⟩
  exact analyze_relabelled hrelabels hv hv' (reaching_isMonotone _ _) (by decide +kernel)
    (by decide +kernel) (c := 2) (by decide)

end Problem
end FlowAnalysis
