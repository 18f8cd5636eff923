import FlowAnalysis.Fixpoint.Solve

/-! # Why a run failed

A run fails because its graph breaks the contract or because the bound on the
evaluations has struck.
-/
namespace FlowAnalysis

inductive Failure where
  | malformed (v : Violation)
  | diverged (evaluations : Nat)
  deriving DecidableEq, Repr

namespace Failure

def message : Failure → String
  | malformed v => "malformed graph: " ++ v.message
  | diverged n => "the analysis did not converge after " ++ toString n ++ " node evaluations"

def cause? : Failure → Option String
  | malformed v => some v.message
  | diverged _ => none

end Failure

variable {F R : Type}

def Report.failure? (r : Report F R) : Option Failure :=
  match r.ending with
  | .malformed v => some (.malformed v)
  | .gaveUp _ => some (.diverged r.evaluations.size)
  | _ => none

end FlowAnalysis
