import FlowAnalysis.Graph.Node

/-! # Drawing a graph as DOT text

One line per node in ascending order, an empty line, then one line per
successor entry in the same order, the not-taken ones of a node first. Taken
edges carry the mark T. The text of a statement is the caller's and is written
as it is.
-/
namespace FlowAnalysis.Drawing
variable {S : Type}

def name (l : Label) : String := "Node_" ++ toString l

def nodeLine (l : Label) (text : String) : String := "  " ++ name l ++ "[label=\"" ++ text ++ "\"]"

def edgeLine (source target : Label) : EdgeClass → String
  | .notTaken => "  " ++ name source ++ " -> " ++ name target
  | .taken => "  " ++ name source ++ " -> " ++ name target ++ "[label=\"T\"]"

def edgeLines (l : Label) (n : Node S) : List String :=
  EdgeClass.all.flatMap fun c => (n.succs.get c).map fun t => edgeLine l t c

def lines (nodes : LabelMap (Node S)) (text : S → String) : List String :=
  ["digraph CFG \x7b"] ++ nodes.toList.map (fun e => nodeLine e.1 (text e.2.stmt)) ++ [""] ++
    nodes.toList.flatMap (fun e => edgeLines e.1 e.2) ++ ["\x7d"]

def render (nodes : LabelMap (Node S)) (text : S → String) : String :=
  String.join ((lines nodes text).map (· ++ "\n"))

end FlowAnalysis.Drawing
