import Mathlib.Algebra.BigOperators.Group.Finset.Piecewise
import Mathlib.Algebra.Group.Action.Defs
import Mathlib.Algebra.Order.BigOperators.Group.Finset
import FlowAnalysis.Proofs.LeastSolution

/-! # How many evaluations a monotone problem takes

Every slot holds what its node has made of a fact below the one that arrives
now, so that a replaced slot rises. Each rise pays for the labels that it
awakens, one for each edge that leaves the slot, and over facts of finite
height there are at most as many rises per edge as the height has steps.
-/
namespace FlowAnalysis
variable {S F : Type}

namespace Problem
variable {p : Problem S F} {flows : Flows F}

/-- Every slot holds the initial fact or what the node has made of a fact below the one that
arrives now. -/
def Supported (p : Problem S F) (flows : Flows F) : Prop :=
  ∀ (k : EdgeClass) (l : Label) (n : Node S) (x : F), p.graph.nodes[l]? = some n →
    (flows.outgoing.get k)[l]? = some x → x = p.initial ∨
      ∃ z, (p.transfer n z).get k = some x ∧ ∀ xs : List F, p.arriving flows l n = xs.map some →
        Below p.merge z (mergeAll p.merge p.initial xs)

/-- The facts that a slot has held in turn during a run from seeded flows. -/
def history (p : Problem S F) (s : State F) (k : EdgeClass) (l : Label) : List F :=
  p.initial :: recorded Evaluation.replaced s.evaluations k l

def Climbs (p : Problem S F) (s : State F) : Prop :=
  ∀ (k : EdgeClass) (l : Label), l ∈ p.graph.nodes →
    (s.flows.outgoing.get k)[l]? = (p.history s k l).getLast? ∧
      (p.history s k l).IsChain (Rises p.merge)

/-- Every evaluation, made or queued, is one of those at the start or paid for by a rise. -/
def Charged (p : Problem S F) (s : State F) : Prop :=
  s.evaluations.size + s.worklist.size ≤ p.graph.nodes.size +
    ∑ d ∈ p.graph.edges, (recorded Evaluation.replaced s.evaluations d.cls d.source).length

variable [BEq F] {s t : State F} {tick height : Nat} {n : Node S} {e : Evaluation F}

/-- A label is awakened over an edge whose source has replaced the slot. -/
theorem Evaluates.card_awakened_le (h : p.Evaluates tick flows n e) :
    e.awakened.toFinset.card ≤ ∑ d ∈ p.graph.edges,
      (if e.label = d.source then (e.replaced.get d.cls).toList else []).length := by
  let paying := p.graph.edges.filter fun d => e.label = d.source ∧ (e.replaced.get d.cls).isSome
  have hsub : e.awakened.toFinset ⊆ paying.image Edge.target := by
    intro x hx
    obtain ⟨k, hk, hs⟩ := (h.awakened x).mp (List.mem_toFinset.mp hx)
    have hedge : (⟨e.label, x, k⟩ : Edge) ∈ p.graph.edges :=
      FlowGraph.mem_edges.mpr ⟨n, h.node, hs⟩
    exact Finset.mem_image.mpr ⟨_, Finset.mem_filter.mpr ⟨hedge, rfl, hk⟩, rfl⟩
  have hone : ∀ d ∈ p.graph.edges,
      (if e.label = d.source ∧ (e.replaced.get d.cls).isSome then 1 else 0) =
        (if e.label = d.source then (e.replaced.get d.cls).toList else []).length := by
    intro d _
    cases e.replaced.get d.cls <;> by_cases hl : e.label = d.source <;> simp [hl]
  calc e.awakened.toFinset.card
      ≤ (paying.image Edge.target).card := Finset.card_le_card hsub
    _ ≤ paying.card := Finset.card_image_le
    _ = _ := (Finset.card_filter _ _).trans (Finset.sum_congr rfl hone)

theorem Advances.charged (h : p.Advances s t n e) (hs : s.Sound p.graph) (hc : p.Charged s) :
    p.Charged t := by
  have hsize := h.size_worklist_le hs
  have hpaid := h.evaluates.card_awakened_le
  unfold Charged at hc ⊢
  simp only [h.evaluations, recorded_push, List.length_append, Finset.sum_add_distrib,
    Array.size_push]
  omega

variable [LawfulBEq F]

theorem Supported.rises (hs : p.Supported flows) (hm : p.IsMonotone)
    (h : p.Evaluates tick flows n e) {k : EdgeClass} {x y : F}
    (hx : (flows.outgoing.get k)[e.label]? = some x) (hy : e.replaced.get k = some y) :
    Rises p.merge x y := by
  obtain ⟨hout, hne⟩ := h.transfer_of_replaced hm.steady hy
  refine ⟨?_, fun heq => hne (heq ▸ hx)⟩
  rcases hs k _ n x h.node hx with rfl | ⟨z, hz, hbelow⟩
  · exact hm.initial_below y
  · have hin := hbelow e.gathered h.gathered
    rw [← h.incoming] at hin
    obtain ⟨b, hb, hxb⟩ := hm.flowsUp h.node hin hz
    exact Option.some.inj (hb.symm.trans hout) ▸ hxb

theorem Supported.outgoingBelow_commit (hs : p.Supported flows) (hm : p.IsMonotone)
    (h : p.Evaluates tick flows n e) : flows.OutgoingBelow p.merge (e.commit flows) := by
  intro k l x y hx hy
  rcases Evaluation.getElem?_commit_outgoing_cases hy with hy | ⟨rfl, hr⟩
  · obtain rfl := Option.some.inj (hx.symm.trans hy)
    exact hm.semilattice.idem x
  · exact (hs.rises hm h hx hr).1

theorem Supported.commit (hs : p.Supported flows) (hv : p.graph.Valid) (hm : p.IsMonotone)
    (hc : flows.Covers p.graph) (h : p.Evaluates tick flows n e) : p.Supported (e.commit flows) := by
  have hup := hs.outgoingBelow_commit hm h
  intro k l m x hnode hx
  rcases Evaluation.getElem?_commit_outgoing_cases hx with hx | ⟨rfl, hr⟩
  · rcases hs k l m x hnode hx with rfl | ⟨z, hz, hbelow⟩
    · exact .inl rfl
    · refine .inr ⟨z, hz, fun ys hys => ?_⟩
      obtain ⟨xs, hxs⟩ := exists_arriving hv hc.fills hnode
      exact hm.semilattice.bounding.trans (hbelow xs hxs) (mergeAll_arriving_below hm hup hxs hys)
  · obtain rfl : n = m := Option.some.inj (h.node.symm.trans hnode)
    obtain ⟨hout, _⟩ := h.transfer_of_replaced hm.steady hr
    refine .inr ⟨e.incoming, hout, fun ys hys => ?_⟩
    have hbelow := mergeAll_arriving_below hm hup h.gathered hys
    rwa [← h.incoming] at hbelow

theorem Advances.climbs (h : p.Advances s t n e) (hm : p.IsMonotone) (hs : p.Supported s.flows)
    (hc : p.Climbs s) : p.Climbs t := by
  intro k l hl
  obtain ⟨hlast, hchain⟩ := hc k l hl
  have hhistory : p.history t k l =
      p.history s k l ++ if e.label = l then (e.replaced.get k).toList else [] := by
    rw [history, h.evaluations, recorded_push]
    rfl
  rw [hhistory, h.flows, Evaluation.getElem?_commit_outgoing, hlast, List.getLast?_append]
  by_cases hl : e.label = l
  · subst hl
    cases hr : e.replaced.get k with
    | none => simpa using hchain
    | some y =>
      refine ⟨by simp, List.isChain_append.mpr ⟨hchain, by simp, ?_⟩⟩
      intro x hx z hz
      obtain rfl : y = z := by simpa using hz
      exact hs.rises hm h.evaluates (hlast.trans hx) hr
  · simpa [hl] using hchain

omit [BEq F] [LawfulBEq F] in
theorem Starts.getElem?_outgoing {k : EdgeClass} {l : Label} (h : p.Starts p.seeded s)
    (hl : l ∈ p.graph.nodes) : (s.flows.outgoing.get k)[l]? = some p.initial := by
  obtain ⟨n, hn⟩ := LabelMap.exists_of_mem hl
  rw [h.flows, Flows.get_complete_outgoing, Flows.getElem?_completeSlots, hn,
    getElem?_seeded_outgoing]
  split <;> rfl

theorem Reaches.evaluations_le (h : p.Reaches s t) (hv : p.graph.Valid) (hm : p.IsMonotone)
    (hh : HeightAtMost p.merge height) (hs : p.Starts p.seeded s) :
    t.evaluations.size + t.worklist.size ≤ p.graph.nodes.size + height * p.graph.edges.card := by
  have hstart : p.Supported s.flows ∧ p.Climbs s ∧ p.Charged s := by
    refine ⟨fun k l n x hn hx => .inl ?_, fun k l hl => ?_, ?_⟩
    · exact Option.some.inj (hx.symm.trans (hs.getElem?_outgoing (LabelMap.mem_of_getElem? hn)))
    · rw [hs.getElem?_outgoing hl, history, hs.evaluations]
      exact ⟨rfl, .singleton _⟩
    · simp [Charged, hs.evaluations, hs.size]
  obtain ⟨_, _, hclimbs, hcharged⟩ := h.preserves hv
    (fun s => p.Supported s.flows ∧ p.Climbs s ∧ p.Charged s)
    (fun hsound ha hi => ⟨ha.flows ▸ hi.1.commit hv hm hsound.covers ha.evaluates,
      ha.climbs hm hi.1 hi.2.1, ha.charged hsound hi.2.2⟩) hs.sound hstart
  have hpaid : ∀ d ∈ p.graph.edges,
      (recorded Evaluation.replaced t.evaluations d.cls d.source).length ≤ height := by
    intro d hd
    obtain ⟨m, hm, _⟩ := FlowGraph.mem_edges.mp hd
    have hchain := (hclimbs d.cls d.source (LabelMap.mem_of_getElem? hm)).2
    exact Nat.le_of_succ_le_succ (hh _ hchain)
  have hsum := Finset.sum_le_card_nsmul p.graph.edges _ height hpaid
  rw [smul_eq_mul, Nat.mul_comm] at hsum
  exact hcharged.trans (Nat.add_le_add_left hsum _)

/-- A monotone problem over facts of finite height settles unless the bound on its evaluations is
too small: it takes at most one evaluation per node, and for each edge as many as the height has
steps. -/
theorem analyze_settles (hv : p.graph.violation? = .ok none) (hm : p.IsMonotone)
    (hh : HeightAtMost p.merge height) :
    let most := p.graph.nodes.size + height * p.graph.edges.card
    (∀ settings steps, (p.analyze settings steps).evaluations.size ≤ most) ∧
    ∀ settings, settings.nodeLimit = 0 ∨ most ≤ settings.bound p.graph.nodes.size → ∀ steps,
      (∀ queued, (p.analyze settings steps).ending ≠ .gaveUp queued) ∧
      (most < steps → (p.analyze settings steps).ending = .settled) := by
  intro most
  have hvalid := FlowGraph.violation?_eq_ok_none_iff.mp hv
  refine ⟨fun settings steps => ?_, fun settings hb steps => ?_⟩
  · obtain ⟨s, t, ending, hs, hr, hrun, _⟩ := solve_reaches hv settings steps p.seeded
    have hle := hr.evaluations_le hvalid hm hh hs
    rw [analyze, hrun]
    exact (Nat.le_add_right _ _).trans hle
  · obtain ⟨s, t, ending, hs, hr, hrun, hend⟩ := solve_reaches hv settings steps p.seeded
    have hle : t.evaluations.size + t.worklist.size ≤ most := hr.evaluations_le hvalid hm hh hs
    rw [analyze, hrun]
    cases hend with
    | settled h0 => exact ⟨by simp, fun _ => rfl⟩
    | gaveUp hw hbound hstruck =>
      rcases hb with hz | hb
      · simp [Settings.bound, hz] at hbound
      · omega
    | unfinished hsteps => exact ⟨by simp, fun hlt => by omega⟩

theorem analyze_settles_reaching :
    (∀ settings steps, ((reaching .loop [0]).analyze settings steps).evaluations.size ≤ 7) ∧
    ((reaching .loop [0]).analyze {} 8).ending = .settled ∧
    ∀ steps queued, ((reaching .loop [0]).analyze { nodeLimit := 3 } steps).ending ≠ .gaveUp queued := by
  obtain ⟨hsize, hsettled⟩ := analyze_settles FlowGraph.loop_accepted (reaching_isMonotone .loop [0])
    heightAtMost_or
  have hmost : FlowGraph.loop.nodes.size + 1 * FlowGraph.loop.edges.card = 7 := by decide
  exact ⟨fun settings steps => hmost ▸ hsize settings steps,
    (hsettled {} (.inl rfl) 8).2 (by decide),
    fun steps => (hsettled { nodeLimit := 3 } (.inr (by decide)) steps).1⟩

end Problem
end FlowAnalysis
