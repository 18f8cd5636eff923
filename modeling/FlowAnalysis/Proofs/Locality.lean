import FlowAnalysis.Proofs.Simulation

/-! # What lies upstream decides

Facts travel along the edges and no other way, so what is found out at a label
depends on the part of the graph from which it can be reached. Two problems that
agree on a set of labels into which no edge leads simulate each other within it.
The rest of the graph has a say in the order and the number of the evaluations
there, and in nothing else.
-/
namespace FlowAnalysis
variable {S T F : Type}

namespace Problem

/-- Within a set of labels that no edge leads into, the problems cannot be told apart from what
leads to a label. -/
structure AgreesWithin (p : Problem S F) (p' : Problem T F) (A : Set Label) : Prop where
  merge : p'.merge = p.merge
  boundary : p'.boundary = p.boundary
  mem : ∀ c ∈ A, c ∈ p.graph.nodes ∧ c ∈ p'.graph.nodes
  entries : ∀ c ∈ A, c ∈ p'.graph.entries ↔ c ∈ p.graph.entries
  edges : ∀ c ∈ A, ∀ k a, p'.graph.HasEdge k a c ↔ p.graph.HasEdge k a c
  closed : ∀ c ∈ A, ∀ {k a}, p.graph.HasEdge k a c → a ∈ A
  transfer : ∀ c ∈ A, ∀ {n : Node S} {n' : Node T}, p.graph.nodes[c]? = some n →
    p'.graph.nodes[c]? = some n' → p'.transfer n' = p.transfer n

variable {p : Problem S F} {p' : Problem T F} {A : Set Label} {c : Label}

namespace AgreesWithin

theorem symm (h : p.AgreesWithin p' A) : p'.AgreesWithin p A where
  merge := h.merge.symm
  boundary := h.boundary.symm
  mem := fun c hc => (h.mem c hc).symm
  entries := fun c hc => (h.entries c hc).symm
  edges := fun c hc k a => (h.edges c hc k a).symm
  closed := fun c hc {k a} he => h.closed c hc ((h.edges c hc k a).mp he)
  transfer := fun c hc {_ _} hn' hn => (h.transfer c hc hn hn').symm

theorem simulatedBy (h : p.AgreesWithin p' A) (hm : p.IsMonotone) : p.SimulatedBy p' (SharedIn A) where
  merge := h.merge
  boundary := h.boundary ▸ hm.semilattice.idem _
  mem := by
    rintro c _ ⟨hc, rfl⟩ _
    exact (h.mem c hc).2
  entry := by
    rintro c _ ⟨hc, rfl⟩ he
    exact (h.entries c hc).mpr he
  edge := by
    rintro k a c _ ⟨hc, rfl⟩ he
    exact ⟨a, ⟨h.closed c hc he, rfl⟩, (h.edges c hc k a).mpr he⟩
  transfer := by
    rintro c _ n n' ⟨hc, rfl⟩ hn hn' k x a ha
    exact ⟨a, h.transfer c hc hn hn' ▸ ha, hm.semilattice.idem a⟩

end AgreesWithin

variable [BEq F] [LawfulBEq F] {settings settings' : Settings} {steps steps' : Nat}

/-- Settled runs of problems that agree within a set leave the same facts at every label of it,
however the graphs, the entries and the flow functions differ elsewhere, whatever the visiting orders
and the bounds. -/
theorem analyze_within (h : p.AgreesWithin p' A) (hv : p.graph.violation? = .ok none)
    (hv' : p'.graph.violation? = .ok none) (hm : p.IsMonotone) (hm' : p'.IsMonotone)
    (hend : (p.analyze settings steps).ending = .settled)
    (hend' : (p'.analyze settings' steps').ending = .settled) (hc : c ∈ A) :
    (p.analyze settings steps).flows.SameFacts (p'.analyze settings' steps').flows c c := by
  have hback := h.symm.simulatedBy hm'
  rw [← flip_sharedIn] at hback
  exact (h.simulatedBy hm).sameFacts hback hv hv' hm hm' hend hend' ⟨hc, rfl⟩ (h.mem c hc).1

theorem reaching_agreesWithin {g g' : FlowGraph Unit} {ls ls' : List Label} {A : Finset Label}
    (hv : g.Valid) (hv' : g'.Valid) (hids : A ⊆ g.ids.toFinset ∩ g'.ids.toFinset)
    (hentries : A ∩ g'.entries.toFinset = A ∩ g.entries.toFinset)
    (hedges : g'.edges.filter (·.target ∈ A) = g.edges.filter (·.target ∈ A))
    (hclosed : ∀ e ∈ g.edges, e.target ∈ A → e.source ∈ A)
    (hls : A ∩ ls'.toFinset = A ∩ ls.toFinset) : (reaching g ls).AgreesWithin (reaching g' ls') A := by
  have hread : ∀ {xs xs' : List Label}, A ∩ xs'.toFinset = A ∩ xs.toFinset →
      ∀ c ∈ A, c ∈ xs' ↔ c ∈ xs := by
    intro xs xs' h c hc
    have hboth := Finset.ext_iff.mp h c
    rwa [Finset.mem_inter, Finset.mem_inter, and_iff_right hc, and_iff_right hc, List.mem_toFinset,
      List.mem_toFinset] at hboth
  refine ⟨rfl, rfl, ?_, hread hentries, ?_, ?_, ?_⟩
  · intro c hc
    obtain ⟨hl, hl'⟩ := Finset.mem_inter.mp (hids hc)
    exact ⟨(hv.mem_ids c).mp (List.mem_toFinset.mp hl), (hv'.mem_ids c).mp (List.mem_toFinset.mp hl')⟩
  · intro c hc k a
    have hedge := Finset.ext_iff.mp hedges ⟨a, c, k⟩
    rwa [Finset.mem_filter, Finset.mem_filter, and_iff_left (Finset.mem_coe.mp hc),
      and_iff_left (Finset.mem_coe.mp hc), FlowGraph.mem_edges, FlowGraph.mem_edges] at hedge
  · exact fun c hc {k a} he => hclosed ⟨a, c, k⟩ (FlowGraph.mem_edges.mpr he) hc
  · intro c hc n n' hn hn'
    refine transfer_reaching ?_
    rw [hv.label_eq hn, hv'.label_eq hn']
    exact hread hls c hc

/-- The loop with another way out of it, which meets one from a second entry. -/
def extendedLoop : FlowGraph Unit := .ofNodes [0, 5] [
  { label := 0, succs := ⟨[1], []⟩, stmt := () },
  { label := 1, preds := ⟨[0], [1]⟩, succs := ⟨[4], [1]⟩, stmt := () },
  { label := 4, preds := ⟨[1, 5], [4]⟩, succs := ⟨[], [4]⟩, stmt := () },
  { label := 5, succs := ⟨[4], []⟩, stmt := () }]

/-- The second entry and what lies behind it take most of the evaluations. -/
theorem analyze_within_loop :
    ((reaching .loop [0]).analyze {} 20).visits = [0, 1, 1, 2] ∧
    ((reaching extendedLoop [0, 5]).analyze ⟨4, .label⟩ 20).visits = [0, 1, 1, 4, 4, 5, 4] ∧
    ((reaching .loop [0]).analyze {} 20).flows.SameFacts
      ((reaching extendedLoop [0, 5]).analyze ⟨4, .label⟩ 20).flows 1 1 := by
  have hv := FlowGraph.loop_accepted
  have hv' : extendedLoop.violation? = .ok none := rfl
  have hagrees : (reaching .loop [0]).AgreesWithin (reaching extendedLoop [0, 5])
      (({0, 1} : Finset Label) : Set Label) :=
    reaching_agreesWithin (FlowGraph.violation?_eq_ok_none_iff.mp hv)
      (FlowGraph.violation?_eq_ok_none_iff.mp hv') (by decide) (by decide) (by decide) (by decide)
      (by decide)
  refine ⟨by decide +kernel, by decide +kernel, ?_⟩
  exact analyze_within hagrees hv hv' (reaching_isMonotone _ _) (reaching_isMonotone _ _)
    (by decide +kernel) (by decide +kernel) (by simp)

end Problem
end FlowAnalysis
