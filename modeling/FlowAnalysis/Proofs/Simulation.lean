import FlowAnalysis.Proofs.PlainRuns

/-! # Problems that simulate one another

One problem simulates another along a relation of their labels when whatever
leads to a label has its like at every label that it is related to: an edge of
the same class from a related label, an entry, a node that makes no less of the
same fact. The slots of the first problem then stay at any time below those of a
post-solution of the second, though the two runs take nothing step by step
together. Problems that simulate each other leave the same facts at related
labels when they have settled.
-/
namespace FlowAnalysis
variable {S T F : Type}

/-- A label of the set, as a label of either problem. -/
def SharedIn (A : Set Label) (c c' : Label) : Prop := c ∈ A ∧ c = c'

theorem flip_sharedIn (A : Set Label) : flip (SharedIn A) = SharedIn A :=
  flip_eq_iff.mpr ⟨fun _ _ ⟨hc, he⟩ => ⟨he ▸ hc, he.symm⟩⟩

namespace Flows

/-- The facts that leave a label lie below those that leave every related label of the other flows. -/
def OutgoingBelowAlong (merge : F → F → F) (R : Label → Label → Prop) (a b : Flows F) : Prop :=
  ∀ {c c' : Label}, R c c' → ∀ (k : EdgeClass) (x y : F), (a.outgoing.get k)[c]? = some x →
    (b.outgoing.get k)[c']? = some y → FlowAnalysis.Below merge x y

/-- The three slots of a label hold what those of the other label hold in the other flows. -/
structure SameFacts (a b : Flows F) (c c' : Label) : Prop where
  incoming : ∃ x, a.incoming[c]? = some x ∧ b.incoming[c']? = some x
  outgoing : ∀ k, ∃ x, (a.outgoing.get k)[c]? = some x ∧ (b.outgoing.get k)[c']? = some x

end Flows

namespace Problem

/-- Whatever leads to a label of the first problem has its like at every related label of the second. -/
structure SimulatedBy (p : Problem S F) (p' : Problem T F) (R : Label → Label → Prop) : Prop where
  merge : p'.merge = p.merge
  boundary : Below p.merge p.boundary p'.boundary
  mem : ∀ {c c' : Label}, R c c' → c ∈ p.graph.nodes → c' ∈ p'.graph.nodes
  entry : ∀ {c c' : Label}, R c c' → c ∈ p.graph.entries → c' ∈ p'.graph.entries
  edge : ∀ {k : EdgeClass} {a c c' : Label}, R c c' → p.graph.HasEdge k a c →
    ∃ a', R a a' ∧ p'.graph.HasEdge k a' c'
  transfer : ∀ {c c' : Label} {n : Node S} {n' : Node T}, R c c' → p.graph.nodes[c]? = some n →
    p'.graph.nodes[c']? = some n' → ∀ {k x a}, (p.transfer n x).get k = some a →
      ∃ b, (p'.transfer n' x).get k = some b ∧ Below p.merge a b

variable {p : Problem S F} {p' : Problem T F} {R : Label → Label → Prop} {flows q : Flows F}
  {c c' : Label} {n : Node S} {n' : Node T} {k : EdgeClass} {xs : List F} {x y : F}

/-- What arrives at a label is merged to a fact below the one that enters a related label. -/
theorem SimulatedBy.mergeAll_below (h : p.SimulatedBy p' R) (hv : p.graph.Valid) (hv' : p'.graph.Valid)
    (hm : p.IsMonotone) (hq : p'.PostSolution q) (hb : flows.OutgoingBelowAlong p.merge R q) (hR : R c c')
    (hn : p.graph.nodes[c]? = some n) (hn' : p'.graph.nodes[c']? = some n')
    (hxs : p.arriving flows c n = xs.map some) (hx : q.incoming[c']? = some x) :
    Below p.merge (mergeAll p.merge p.initial xs) x := by
  have hbound := hm.semilattice.bounding
  obtain ⟨ys, hys⟩ := exists_arriving hv' hq.fills hn'
  have hmerged := hq.incoming hn' hys hx
  rw [h.merge] at hmerged
  have harrives : ∀ {y}, some y ∈ p'.arriving q c' n' → Below p.merge y x := fun hy =>
    hbound.trans (hbound.le_mergeAll p'.initial ((mem_of_arriving hys).mp hy)) hmerged
  apply hm.semilattice.mergeAll_below (hm.initial_below x)
  intro y hy
  rcases mem_arriving.mp ((mem_of_arriving hxs).mpr hy) with ⟨k, a, ha, hya⟩ | ⟨he, hyb⟩
  · obtain ⟨a', hR', hedge⟩ := h.edge hR ((hv.hasEdge_iff hn).mpr ha)
    obtain ⟨z, hz⟩ := LabelMap.exists_of_mem (hq.fills.outgoing k a' hedge.source_mem)
    have hpred := (hv'.hasEdge_iff hn').mp hedge
    exact hbound.trans (hb hR' k y z hya hz) (harrives (mem_arriving.mpr (.inl ⟨k, a', hpred, hz⟩)))
  · have hentry := harrives (mem_arriving.mpr (.inr ⟨h.entry hR he, rfl⟩))
    exact Option.some.inj hyb ▸ hbound.trans h.boundary hentry

variable [BEq F] [LawfulBEq F] {settings settings' : Settings} {steps steps' : Nat}

/-- However a run ends, its slots lie below those of a post-solution of the simulating problem. -/
theorem SimulatedBy.outgoingBelowAlong (h : p.SimulatedBy p' R) (hv : p.graph.violation? = .ok none)
    (hv' : p'.graph.Valid) (hm : p.IsMonotone) (hq : p'.PostSolution q) (settings : Settings) (steps : Nat) :
    (p.analyze settings steps).flows.OutgoingBelowAlong p.merge R q := by
  have hvalid := FlowGraph.violation?_eq_ok_none_iff.mp hv
  intro c c' hR k x y hx
  -- Which of the related labels an edge will ask for is not known beforehand, so the invariant is
  -- about all of them.
  refine analyze_slots hv (fun k c x => ∀ {c'}, R c c' → ∀ y, (q.outgoing.get k)[c']? = some y →
    Below p.merge x y) (fun _ _ _ _ _ y _ => hm.initial_below y) ?_ settings steps k c x hx hR y
  intro tick flows n e he hi k x hx c' hR y hy
  obtain ⟨n', hn'⟩ := LabelMap.exists_of_mem (h.mem hR (LabelMap.mem_of_getElem? he.node))
  obtain ⟨z, hz⟩ := LabelMap.exists_of_mem (hq.fills.incoming c' (LabelMap.mem_of_getElem? hn'))
  have hin := h.mergeAll_below hvalid hv' hm hq (fun hR k x y hx => hi k _ x hx hR y) hR he.node hn'
    he.gathered hz
  rw [← he.incoming] at hin
  rw [he.outcome_eq hm.steady] at hx
  obtain ⟨v, hv, hxv⟩ := hm.flowsUp he.node hin hx
  obtain ⟨w, hw, hvw⟩ := h.transfer hR he.node hn' hv
  have hwy := hq.outgoing hn' hz hw hy
  rw [h.merge] at hwy
  exact hm.semilattice.bounding.trans (hm.semilattice.bounding.trans hxv hvw) hwy

theorem SimulatedBy.incoming_below (h : p.SimulatedBy p' R) (hv : p.graph.violation? = .ok none)
    (hv' : p'.graph.Valid) (hm : p.IsMonotone) (hq : p'.PostSolution q)
    (hend : (p.analyze settings steps).ending = .settled) (hR : R c c')
    (hx : (p.analyze settings steps).flows.incoming[c]? = some x) (hy : q.incoming[c']? = some y) :
    Below p.merge x y := by
  obtain ⟨hcov, hbal⟩ := balanced_of_settled hv hm.steady hend
  have hc := (hcov.incoming c).mp (LabelMap.mem_of_getElem? hx)
  obtain ⟨n, hn⟩ := LabelMap.exists_of_mem hc
  obtain ⟨n', hn'⟩ := LabelMap.exists_of_mem (h.mem hR hc)
  obtain ⟨xs, hxs, hin⟩ := (hbal c n hn).incoming
  obtain rfl := Option.some.inj (hx.symm.trans hin)
  exact h.mergeAll_below (FlowGraph.violation?_eq_ok_none_iff.mp hv) hv' hm hq
    (h.outgoingBelowAlong hv hv' hm hq settings steps) hR hn hn' hxs hy

/-- Problems that simulate each other leave the same facts at related labels, whatever the visiting
orders and the bounds. -/
theorem SimulatedBy.sameFacts (h : p.SimulatedBy p' R) (h' : p'.SimulatedBy p (flip R))
    (hv : p.graph.violation? = .ok none) (hv' : p'.graph.violation? = .ok none) (hm : p.IsMonotone)
    (hm' : p'.IsMonotone) (hend : (p.analyze settings steps).ending = .settled)
    (hend' : (p'.analyze settings' steps').ending = .settled) (hR : R c c') (hc : c ∈ p.graph.nodes) :
    (p.analyze settings steps).flows.SameFacts (p'.analyze settings' steps').flows c c' := by
  have hvalid := FlowGraph.violation?_eq_ok_none_iff.mp hv
  have hvalid' := FlowGraph.violation?_eq_ok_none_iff.mp hv'
  have hq := solve_postSolution hv hm hend
  have hq' := solve_postSolution hv' hm' hend'
  have hc' := h.mem hR hc
  constructor
  · obtain ⟨x, hx⟩ := LabelMap.exists_of_mem (hq.fills.incoming c hc)
    obtain ⟨y, hy⟩ := LabelMap.exists_of_mem (hq'.fills.incoming c' hc')
    have hxy := h.incoming_below hv hvalid' hm hq' hend hR hx hy
    have hyx := h'.incoming_below hv' hvalid hm' hq hend' hR hy hx
    rw [h.merge] at hyx
    exact ⟨x, hx, hm.semilattice.antisymm hxy hyx ▸ hy⟩
  · intro k
    obtain ⟨x, hx⟩ := LabelMap.exists_of_mem (hq.fills.outgoing k c hc)
    obtain ⟨y, hy⟩ := LabelMap.exists_of_mem (hq'.fills.outgoing k c' hc')
    have hxy := h.outgoingBelowAlong hv hvalid' hm hq' settings steps hR k x y hx hy
    have hyx := h'.outgoingBelowAlong hv' hvalid hm' hq settings' steps' hR k y x hy hx
    rw [h.merge] at hyx
    exact ⟨x, hx, hm.semilattice.antisymm hxy hyx ▸ hy⟩

end Problem
end FlowAnalysis
