import FlowAnalysis.Proofs.Termination
import FlowAnalysis.Proofs.Updates

/-! # Runs over plain nodes

What holds of the slots at any time of a run, and what holds of them when it has
settled. Over plain nodes there is one slot to a label, and what arrives there
stands in the slots of the predecessors or is the boundary fact.
-/
namespace FlowAnalysis
variable {S F : Type} [BEq F] [LawfulBEq F]

/-- What holds of the initial fact, and of what flows out of a node whenever it holds of what stands
in the slots, holds of the slots however a run ends. -/
theorem Problem.analyze_slots {p : Problem S F} (hv : p.graph.violation? = .ok none)
    (holds : EdgeClass → Label → F → Prop) (hstart : ∀ k, ∀ l ∈ p.graph.nodes, holds k l p.initial)
    (hstep : ∀ {tick : Nat} {flows : Flows F} {n : Node S} {e : Evaluation F}, p.Evaluates tick flows n e →
      (∀ k l x, (flows.outgoing.get k)[l]? = some x → holds k l x) →
        ∀ {k x}, e.outcome.get k = some x → holds k e.label x)
    (settings : Settings) (steps : Nat) (k : EdgeClass) (l : Label) (x : F)
    (hx : ((p.analyze settings steps).flows.outgoing.get k)[l]? = some x) : holds k l x := by
  obtain ⟨s, t, ending, hs, hr, hrun, _⟩ := solve_reaches hv settings steps p.seeded
  have hslots := hr.preserves (FlowGraph.violation?_eq_ok_none_iff.mp hv)
    (fun s => ∀ k l x, (s.flows.outgoing.get k)[l]? = some x → holds k l x) ?_ hs.sound ?_
  · have hflows : (p.analyze settings steps).flows = t.flows := congrArg Report.flows hrun
    exact hslots.2 k l x (hflows ▸ hx)
  · intro s t n e _ ha hi k l x hx
    rw [ha.flows] at hx
    rcases Evaluation.getElem?_commit_outgoing_cases hx with hold | ⟨rfl, hnew⟩
    · exact hi k l x hold
    · rw [ha.evaluates.replaced, news_eq_some_iff] at hnew
      exact hstep ha.evaluates hi hnew.1
  · intro k l x hx
    have hl := (hs.sound.covers.outgoing k l).mp (LabelMap.mem_of_getElem? hx)
    obtain rfl := Option.some.inj (hx.symm.trans (hs.getElem?_outgoing hl))
    exact hstart k l hl

namespace PlainProblem
variable {p : PlainProblem S F} {settings : Settings} {steps : Nat} {l : Label} {n : PlainNode S}

/-- What holds of the initial fact, and of what flows out of a node where it holds of the facts from
the predecessors, holds of all that flows out. -/
theorem forward_slots (hv : p.forward.graph.violation? = .ok none) (holds : Label → F → Prop)
    (hstart : ∀ l ∈ p.nodes, holds l p.initial)
    (hstep : ∀ {tick : Nat} {l : Label} {n : PlainNode S} {xs : List F}, p.nodes[l]? = some n →
      (∀ x ∈ xs, (∃ b ∈ n.preds, holds b x) ∨ l ∈ p.entries ∧ x = p.boundary) →
        holds l (p.flow tick n (mergeAll p.merge p.initial xs)))
    {x : F} (hx : (p.analyzeForward settings steps).flows.outgoing[l]? = some x) : holds l x := by
  refine Problem.analyze_slots hv (fun k l x => k = .notTaken → holds l x) ?_ ?_ settings steps
    .notTaken l x hx rfl
  · exact fun _ l hl _ => hstart l (Std.ExtTreeMap.mem_map.mp hl)
  · rintro tick flows n e he hi k x hx rfl
    obtain ⟨m, hm, rfl⟩ := LabelMap.getElem?_map_eq_some_iff.mp he.node
    rw [he.outcome, he.incoming] at hx
    obtain rfl := Option.some.inj hx
    refine hstep hm fun y hy => ?_
    rcases Problem.mem_arriving.mp ((Problem.mem_of_arriving he.gathered).mpr hy) with
      ⟨k, q, hq, hslot⟩ | ⟨hentry, hbound⟩
    · cases k with
      | notTaken => exact .inl ⟨q, hq, hi .notTaken q y hslot rfl⟩
      | taken => exact absurd hq List.not_mem_nil
    · exact .inr ⟨hentry, Option.some.inj hbound⟩

/-- In the end the facts that arrive at a label have been merged and have flown through its node. -/
theorem forward_settled (hv : p.forward.graph.violation? = .ok none) (hf : p.forward.Steady)
    (hend : (p.analyzeForward settings steps).ending = .settled) (hn : p.nodes[l]? = some n) :
    ∃ xs : List F,
      (∀ x, x ∈ xs ↔ (∃ b ∈ n.preds, (p.analyzeForward settings steps).flows.outgoing[b]? = some x) ∨
        l ∈ p.entries ∧ x = p.boundary) ∧
      (p.analyzeForward settings steps).flows.incoming[l]? = some (mergeAll p.merge p.initial xs) ∧
      (p.analyzeForward settings steps).flows.outgoing[l]? =
        some (p.flow 0 n (mergeAll p.merge p.initial xs)) := by
  have hfound : p.forward.graph.nodes[l]? = some n.classify :=
    LabelMap.getElem?_map_eq_some_iff.mpr ⟨n, hn, rfl⟩
  obtain ⟨_, hbalanced⟩ := Problem.balanced_of_settled hv hf hend
  have hl := hbalanced l n.classify hfound
  obtain ⟨xs, hxs, hin⟩ := hl.incoming
  refine ⟨xs, fun x => ?_, hin, hl.outgoing (k := .notTaken) hin rfl⟩
  rw [← Problem.mem_of_arriving hxs, Problem.mem_arriving]
  apply or_congr
  · constructor
    · rintro ⟨k, q, hq, hslot⟩
      cases k with
      | notTaken => exact ⟨q, hq, hslot⟩
      | taken => exact absurd hq List.not_mem_nil
    · rintro ⟨q, hq, hslot⟩
      exact ⟨.notTaken, q, hq, hslot⟩
  · exact and_congr_right fun _ => Option.some_inj

/-- The nodes turned round, for a flow function that still sees them as they were. -/
def turned (p : PlainProblem S F) : PlainProblem S F :=
  { p with
    nodes := p.nodes.map fun _ n => n.reverse
    flow := fun tick n x => p.flow tick n.reverse x }

omit [BEq F] [LawfulBEq F] in
theorem backward_eq_turned : p.backward = p.turned.forward := by
  rw [backward, forward, turned, Std.ExtTreeMap.map_map]
  rfl

omit [LawfulBEq F] in
theorem analyzeBackward_eq_turned : p.analyzeBackward settings steps =
    (p.turned.forward.analyze settings steps).mapFlows Flows.against := by
  rw [analyzeBackward, backward_eq_turned]

/-- Backwards, what holds of the initial fact, and of what flows in at a node where it holds of the
facts from the successors, holds of all that flows in. -/
theorem backward_slots (hv : p.backward.graph.violation? = .ok none) (holds : Label → F → Prop)
    (hstart : ∀ l ∈ p.nodes, holds l p.initial)
    (hstep : ∀ {tick : Nat} {l : Label} {n : PlainNode S} {xs : List F}, p.nodes[l]? = some n →
      (∀ x ∈ xs, (∃ b ∈ n.succs, holds b x) ∨ l ∈ p.entries ∧ x = p.boundary) →
        holds l (p.flow tick n (mergeAll p.merge p.initial xs)))
    {x : F} (hx : (p.analyzeBackward settings steps).flows.incoming[l]? = some x) : holds l x := by
  rw [backward_eq_turned] at hv
  rw [analyzeBackward_eq_turned] at hx
  refine forward_slots hv holds (fun l hl => hstart l (Std.ExtTreeMap.mem_map.mp hl)) ?_ hx
  intro tick l n xs hn hxs
  obtain ⟨m, hm, rfl⟩ := LabelMap.getElem?_map_eq_some_iff.mp hn
  exact hstep hm hxs

/-- Backwards, the facts from the successors have been merged in the end and have flown back through
the node. -/
theorem backward_settled (hv : p.backward.graph.violation? = .ok none) (hf : p.backward.Steady)
    (hend : (p.analyzeBackward settings steps).ending = .settled) (hn : p.nodes[l]? = some n) :
    ∃ xs : List F,
      (∀ x, x ∈ xs ↔ (∃ b ∈ n.succs, (p.analyzeBackward settings steps).flows.incoming[b]? = some x) ∨
        l ∈ p.entries ∧ x = p.boundary) ∧
      (p.analyzeBackward settings steps).flows.outgoing[l]? = some (mergeAll p.merge p.initial xs) ∧
      (p.analyzeBackward settings steps).flows.incoming[l]? =
        some (p.flow 0 n (mergeAll p.merge p.initial xs)) := by
  rw [backward_eq_turned] at hv hf
  rw [analyzeBackward_eq_turned] at hend ⊢
  exact forward_settled hv hf hend (LabelMap.getElem?_map_eq_some_iff.mpr ⟨n, hn, rfl⟩)

end PlainProblem
end FlowAnalysis
