import FlowAnalysis.Fixpoint.Log
import FlowAnalysis.Proofs.Acceptance
import FlowAnalysis.Proofs.Sweep

/-! # What a run leaves behind

A graph that breaks the contract is turned away before anything has happened. On
any other graph the flows have slots for exactly its labels, whenever the run is
looked at: completing the flows gives every label its slots, and an evaluation
writes to the slots of its own label. A label whose turn has not come, because
the bound has struck before or because the run still goes on, has in its slots
what it started with.
-/
namespace FlowAnalysis
variable {S F : Type}

/-- The slots of a label hold the facts that they held at the start. Where there was no slot it holds
the boundary fact if it is the incoming slot of an entry, and else the initial one. -/
structure Problem.Keeps (p : Problem S F) (start flows : Flows F) (l : Label) : Prop where
  incoming : flows.incoming[l]? =
    some (start.incoming[l]?.getD (if l ∈ p.graph.entries then p.boundary else p.initial))
  outgoing : ∀ k, (flows.outgoing.get k)[l]? = some ((start.outgoing.get k)[l]?.getD p.initial)

/-- Only the labels that have been evaluated have lost what they started with. -/
def State.Spares (s : State F) (p : Problem S F) (start : Flows F) : Prop :=
  ∀ l ∈ p.graph.nodes, l ∉ s.evaluations.toList.map (·.label) → p.Keeps start s.flows l

/-- A run turns a graph away exactly when the graph has a violation, and then nothing has been touched,
merged or logged. In any other run there are slots for the labels of the graph and no others, and the
labels that have not been evaluated keep what they started with. -/
structure Report.LeavesBehind (r : Report F (Flows F)) (p : Problem S F) (start : Flows F) : Prop where
  malformed_iff : ∀ v, r.failure? = some (.malformed v) ↔ p.graph.violation? = .ok (some v)
  untouched : r.Rejects → r.flows = start ∧ r.evaluations = #[] ∧ r.log p.graph = []
  covers : ¬ r.Rejects → r.flows.Covers p.graph
  keeps : ¬ r.Rejects → ∀ l ∈ p.graph.nodes, l ∉ r.visits → p.Keeps start r.flows l

namespace Problem
variable {p : Problem S F} {start flows : Flows F} {l : Label} {e : Evaluation F}

theorem keeps_complete (hl : l ∈ p.graph.nodes) :
    p.Keeps start (start.complete p.graph p.initial p.boundary) l := by
  obtain ⟨n, hn⟩ := LabelMap.exists_of_mem hl
  constructor
  · simp only [Flows.complete, Flows.getElem?_completeSlots, hn, Option.map_some, List.contains_iff_mem]
  · intro k
    rw [Flows.get_complete_outgoing, Flows.getElem?_completeSlots, hn, Option.map_some]

/-- An evaluation leaves the slots of the other labels alone. -/
theorem Keeps.commit (h : p.Keeps start flows l) (hne : e.label ≠ l) :
    p.Keeps start (e.commit flows) l := by
  constructor
  · rw [Evaluation.getElem?_commit_incoming, if_neg hne]
    exact h.incoming
  · intro k
    rw [Evaluation.getElem?_commit_outgoing_of_ne hne]
    exact h.outgoing k

variable [BEq F] {s t : State F} {n : Node S} {merge : F → F → F}

theorem Advances.spares (h : (p.merging merge).Advances s t n e) (hs : s.Spares p start) :
    t.Spares p start := by
  intro l hl hvisit
  rw [h.evaluations, Array.toList_push, List.map_append, List.mem_append, not_or] at hvisit
  obtain ⟨hbefore, hnow⟩ := hvisit
  rw [h.flows]
  exact (hs l hl hbefore).commit fun he => hnow (List.mem_singleton.mpr he.symm)

/-- What every evaluation preserves is preserved by a run, whichever merges its evaluations use, and
the run does not end but for the reasons that a valid graph allows. -/
theorem runVarying_preserves (merges : Nat → F → F → F) (hv : p.graph.Valid) (Inv : State F → Prop)
    (hstep : ∀ {merge s t n e}, (p.merging merge).Advances s t n e → Inv s → Inv t)
    (hs : s.Sound p.graph) (hi : Inv s) (bound steps : Nat) :
    ∃ t ending, p.runVarying merges bound steps s = ⟨ending, t.evaluations, t.flows⟩ ∧
      t.Sound p.graph ∧ Inv t ∧ ∀ v, ending ≠ .malformed v := by
  induction steps generalizing s with
  | zero => exact ⟨s, .unfinished, rfl, hs, hi, by simp⟩
  | succ steps ih =>
    rcases step_cases (p := p.merging (merges (s.evaluations.size + 1))) hv hs bound with
      ⟨_, he⟩ | ⟨_, _, _, he⟩ | ⟨t, n, e, ha, he⟩
    · exact ⟨s, .settled, by simp only [runVarying, he], hs, hi, by simp⟩
    · exact ⟨s, .gaveUp s.worklist.size, by simp only [runVarying, he], hs, hi, by simp⟩
    · obtain ⟨u, ending, hrun, hu⟩ := ih (ha.sound hv hs) (hstep ha hi)
      exact ⟨u, ending, by simp only [runVarying, he, hrun], hu⟩

theorem solveVarying_leavesBehind (p : Problem S F) (merges : Nat → F → F → F) (settings : Settings)
    (steps : Nat) (start : Flows F) :
    (p.solveVarying merges settings steps start).LeavesBehind p start := by
  obtain ⟨c, hc, _⟩ := p.graph.exists_violation?
  cases c with
  | some v =>
    have hsolve : p.solveVarying merges settings steps start = ⟨.malformed v, #[], start⟩ := by
      simp only [solveVarying, hc]
    rw [hsolve]
    have hrejects : Report.Rejects (F := F) ⟨.malformed v, #[], start⟩ := ⟨v, rfl⟩
    refine ⟨fun w => ?_, fun _ => ⟨rfl, rfl, rfl⟩, absurd hrejects, absurd hrejects⟩
    simp [hc, Report.failure?]
  | none =>
    have hv := FlowGraph.violation?_eq_ok_none_iff.mp hc
    obtain ⟨s, hstart, hs, _⟩ := exists_start_of_accepted hc settings.order start
    have hspares : s.Spares p start := fun l hl _ => hs.flows ▸ keeps_complete hl
    obtain ⟨t, ending, hrun, ht, hkept, hending⟩ := runVarying_preserves merges hv
      (·.Spares p start) Advances.spares hs.sound hspares (settings.bound p.graph.nodes.size) steps
    have hsolve : p.solveVarying merges settings steps start = ⟨ending, t.evaluations, t.flows⟩ := by
      simp only [solveVarying, hc, hstart, hrun]
    rw [hsolve]
    have hfailure : ∀ v, Report.failure? (R := Flows F) ⟨ending, t.evaluations, t.flows⟩ ≠
        some (.malformed v) := fun v => by
      cases ending <;> simp_all [Report.failure?]
    refine ⟨fun v => ?_, ?_, fun _ => ht.covers, fun _ => hkept⟩
    · simp [hfailure v, hc]
    · rintro ⟨v, hv⟩
      exact absurd hv (hfailure v)

/-- A run leaves this behind whatever its graph, whatever it starts from and whenever it is looked at.
Both functions may change with each evaluation. -/
theorem solve_leavesBehind (p : Problem S F) (settings : Settings) (steps : Nat) (start : Flows F) :
    (p.solve settings steps start).LeavesBehind p start ∧
      ∀ merges, (p.solveVarying merges settings steps start).LeavesBehind p start :=
  ⟨solveVarying_const settings steps start ▸ p.solveVarying_leavesBehind _ settings steps start,
    fun merges => p.solveVarying_leavesBehind merges settings steps start⟩

/-- The bound strikes before the last label has had its turn. It has come by a taken slot from the
stale flows, and the fact there stays. -/
theorem solve_leavesBehind_tracing :
    let limited := tracing.solve { nodeLimit := 1 } 20 stale
    limited.failure? = some (.diverged 3) ∧ limited.visits = [0, 1, 1] ∧ limited.flows.Covers .loop ∧
    tracing.Keeps stale limited.flows 2 ∧ (limited.flows.outgoing.get .taken)[(2 : Label)]? = some [9] := by
  intro limited
  have hfailure : limited.failure? = some (.diverged 3) := by decide +kernel
  have hvisits : limited.visits = [0, 1, 1] := by decide +kernel
  obtain ⟨⟨_, _, hcovers, hkeeps⟩, _⟩ := solve_leavesBehind tracing { nodeLimit := 1 } 20 stale
  have haccepted : ¬ limited.Rejects := by simp [Report.Rejects, hfailure]
  have hkept := hkeeps haccepted 2 (by decide +kernel) (by rw [hvisits]; decide)
  exact ⟨hfailure, hvisits, hcovers haccepted, hkept, (hkept.outgoing .taken).trans (by decide +kernel)⟩

end Problem
end FlowAnalysis
