import FlowAnalysis.FactText
import FlowAnalysis.Fixpoint.Solve

/-! # The log of a run

A run says over what it solves, then what flows into each label it evaluates
and which slots are replaced, and last how it ended. A graph that breaks the
contract leaves no line.
-/
namespace FlowAnalysis
variable {S F R : Type}

inductive LogLevel where
  | trace
  | debug
  | warn
  deriving DecidableEq, Repr

def LogLevel.name : LogLevel → String
  | .trace => "TRACE"
  | .debug => "DEBUG"
  | .warn => "WARN"

inductive LogEvent (F : Type) where
  | solving (nodes entries : Nat)
  | incoming (l : Label) (x : F)
  | outgoing (l : Label) (c : EdgeClass) (x : F)
  | gaveUp (evaluations queued : Nat)
  | settled (evaluations : Nat)
  deriving DecidableEq, Repr

namespace LogEvent

def level : LogEvent F → LogLevel
  | solving _ _ => .debug
  | incoming _ _ => .trace
  | outgoing _ _ _ => .trace
  | gaveUp _ _ => .warn
  | settled _ => .debug

def slotName : EdgeClass → String
  | .notTaken => "not-taken out"
  | .taken => "taken out"

def message [FactText F] : LogEvent F → String
  | solving n e => "solving over " ++ toString n ++ " nodes with " ++ toString e ++ " entries"
  | incoming l x => "node " ++ toString l ++ ": in = " ++ text x
  | outgoing l c x => "node " ++ toString l ++ ": " ++ slotName c ++ " = " ++ text x
  | gaveUp n q =>
    "giving up after " ++ toString n ++ " evaluations, " ++ toString q ++ " nodes are still queued"
  | settled n => "fixpoint reached after " ++ toString n ++ " evaluations"

def line [FactText F] (e : LogEvent F) : String := e.level.name ++ " dataflow: " ++ e.message

end LogEvent

def Evaluation.log (e : Evaluation F) : List (LogEvent F) :=
  .incoming e.label e.incoming ::
    EdgeClass.all.filterMap fun c => (e.replaced.get c).map (.outgoing e.label c)

def Report.closing (r : Report F R) : List (LogEvent F) :=
  match r.ending with
  | .settled => [.settled r.evaluations.size]
  | .gaveUp queued => [.gaveUp r.evaluations.size queued]
  | _ => []

def Report.log (r : Report F R) (g : FlowGraph S) : List (LogEvent F) :=
  match r.ending with
  | .malformed _ => []
  | _ =>
    .solving g.nodes.size g.entries.length ::
      (r.evaluations.toList.flatMap Evaluation.log ++ r.closing)

end FlowAnalysis
