import FlowAnalysis.Fixpoint.Failure
import FlowAnalysis.Proofs.Execution
import FlowAnalysis.Proofs.Violations

/-! # How a run can end

No look-up of a run fails, whatever graph it is given: the check of the contract
always has an answer, a graph with a violation is turned away with it before
anything else is looked up, and on a valid graph the worklist and the loop find
what they look for. This holds after any number of evaluations, so also of runs
that never end.
-/
namespace FlowAnalysis
variable {S F R T : Type}

/-- What was looked up was there, and the report names a violation exactly when the graph has it. -/
structure Report.Accounts (r : Report F R) (g : FlowGraph S) : Prop where
  found : ∀ a, r.ending ≠ .absent a
  malformed_iff : ∀ v, r.failure? = some (.malformed v) ↔ g.violation? = .ok (some v)
  rejected_iff : (∃ v, r.failure? = some (.malformed v)) ↔ ¬ g.Valid

namespace Report.Accounts
variable {r : Report F R} {g : FlowGraph S}

theorem of_malformed_iff (hf : ∀ a, r.ending ≠ .absent a)
    (hm : ∀ v, r.failure? = some (.malformed v) ↔ g.violation? = .ok (some v)) : r.Accounts g := by
  refine ⟨hf, hm, ?_⟩
  simp only [hm, ← FlowGraph.violation?_eq_ok_none_iff]
  obtain ⟨c, hc, _⟩ := g.exists_violation?
  cases c <;> simp [hc]

theorem mapFlows (h : r.Accounts g) (f : R → T) : (r.mapFlows f).Accounts g :=
  ⟨h.found, h.malformed_iff, h.rejected_iff⟩

end Report.Accounts

namespace Problem
variable [BEq F]

theorem solve_accounts (p : Problem S F) (settings : Settings) (steps : Nat) (flows : Flows F) :
    (p.solve settings steps flows).Accounts p.graph := by
  obtain ⟨c, hc, _⟩ := p.graph.exists_violation?
  cases c with
  | some v =>
    have hsolve : p.solve settings steps flows = ⟨.malformed v, #[], flows⟩ := by simp only [solve, hc]
    refine .of_malformed_iff ?_ ?_
    · simp [hsolve]
    · simp [hsolve, hc, Report.failure?]
  | none =>
    obtain ⟨s, t, ending, _, _, hsolve, hends⟩ := solve_reaches hc settings steps flows
    refine .of_malformed_iff ?_ ?_
    · rw [hsolve]
      cases hends <;> simp
    · rw [hsolve, hc]
      cases hends <;> simp [Report.failure?]

/-- Checking a graph, solving from any flows and analysing in either direction never miss what they
look up, and whatever is wrong with the graph is reported as a violation of the contract. -/
theorem lookups_never_fail (p : Problem S F) (q : PlainProblem S F) (settings : Settings) (steps : Nat)
    (flows : Flows F) :
    (∃ c, p.graph.violation? = .ok c) ∧
    (p.solve settings steps flows).Accounts p.graph ∧
    (p.analyze settings steps).Accounts p.graph ∧
    (q.analyzeForward settings steps).Accounts q.forward.graph ∧
    (q.analyzeBackward settings steps).Accounts q.backward.graph ∧
    (q.withoutBoundary.analyzeBackward settings steps).Accounts q.withoutBoundary.backward.graph := by
  obtain ⟨c, hc, _⟩ := p.graph.exists_violation?
  refine ⟨⟨c, hc⟩, p.solve_accounts settings steps flows, p.solve_accounts settings steps p.seeded,
    ?_, ?_, ?_⟩
  · exact (q.forward.solve_accounts settings steps _).mapFlows Flows.along
  · exact (q.backward.solve_accounts settings steps _).mapFlows Flows.against
  · exact (q.withoutBoundary.backward.solve_accounts settings steps _).mapFlows Flows.against

end Problem
end FlowAnalysis
