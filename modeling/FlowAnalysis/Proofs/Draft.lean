import FlowAnalysis.Graph.Branching
import FlowAnalysis.Graph.Plain
import FlowAnalysis.Proofs.Contract
import FlowAnalysis.Proofs.Updates

/-! # Drafts of graphs

A draft says what a graph under construction is meant to be: the statement of
every label, and one log of the edges in the order in which they were added.
Placing a statement strikes the edges at its label from the log. The lists of a
node are read off the log: its targets are those of the logged edges that leave
it, its sources those of the edges that lead to it. A plain graph is drawn from
the same draft without regard to the classes.
-/
namespace FlowAnalysis
variable {S : Type}

/-- One step in building a graph. A plain graph does not look at the class of an edge. -/
inductive Edit (S : Type) where
  | addNode (stmt : S)
  | insertNode (l : Label) (stmt : S)
  | addEdge (source target : Label) (cls : EdgeClass)
  deriving DecidableEq, Repr

/-- What a step answers: the label of the node, nothing for an edge, or the end of the edge that is
absent. -/
abbrev Reply := Except Absent (Option Label)

namespace Edit
variable {G D : Type}

/-- Performs steps one after the other and collects what they answer. A step that fails is passed
over. -/
def run (perform : G → Edit S → Reply × G) (g : G) : List (Edit S) → List Reply × G
  | [] => ([], g)
  | e :: es =>
    let (reply, g) := perform g e
    let (replies, g) := run perform g es
    (reply :: replies, g)

/-- If every step commutes with a view of the state, so does a whole run. -/
theorem run_map {perform : G → Edit S → Reply × G} {step : D → Edit S → Reply × D} (view : D → G)
    {Inv : D → Prop} (hview : ∀ {d}, Inv d → ∀ e, perform (view d) e = (step d e).map id view)
    (hinv : ∀ {d}, Inv d → ∀ e, Inv (step d e).2) {d : D} (hd : Inv d) (es : List (Edit S)) :
    run perform (view d) es = (run step d es).map id view := by
  induction es generalizing d with
  | nil => rfl
  | cons e es ih =>
    simp only [run, hview hd, Prod.map, id, ih (hinv hd e)]

theorem run_preserves {perform : G → Edit S → Reply × G} {Inv : G → Prop}
    (hinv : ∀ {g}, Inv g → ∀ e, Inv (perform g e).2) {g : G} (hg : Inv g) (es : List (Edit S)) :
    Inv (run perform g es).2 := by
  induction es generalizing g with
  | nil => exact hg
  | cons e es ih => exact ih (hinv hg e)

end Edit

def BranchGraph.perform (g : BranchGraph S) : Edit S → Reply × BranchGraph S
  | .addNode s => (.ok (some (g.addNode s).1), (g.addNode s).2)
  | .insertNode l s => (.ok (some l), g.insertNode l s)
  | .addEdge a b k =>
    match g.addEdge a b k with
    | .ok g => (.ok none, g)
    | .error e => (.error e, g)

def PlainGraph.perform (g : PlainGraph S) : Edit S → Reply × PlainGraph S
  | .addNode s => (.ok (some (g.addNode s).1), (g.addNode s).2)
  | .insertNode l s => (.ok (some l), g.insertNode l s)
  | .addEdge a b _ =>
    match g.addEdge a b with
    | .ok g => (.ok none, g)
    | .error e => (.error e, g)

structure Draft (S : Type) where
  stmts : LabelMap S := ∅
  /-- The edges in the order in which they were added. -/
  log : List Edge := []

namespace Draft

/-- The label after the largest one. -/
def nextLabel (d : Draft S) : Label := d.stmts.maxKey?.elim 0 Label.following

/-- Sets the statement of a label. The edges at the label go, whichever end it is. -/
def place (d : Draft S) (l : Label) (s : S) : Draft S :=
  { stmts := d.stmts.insert l s, log := d.log.filter fun e => e.source ≠ l ∧ e.target ≠ l }

def connect (d : Draft S) (a b : Label) (k : EdgeClass) : Draft S :=
  { d with log := d.log ++ [⟨a, b, k⟩] }

/-- Of two ends that are absent the target is the one named. -/
def perform (d : Draft S) : Edit S → Reply × Draft S
  | .addNode s => (.ok (some d.nextLabel), d.place d.nextLabel s)
  | .insertNode l s => (.ok (some l), d.place l s)
  | .addEdge a b k =>
    if b ∉ d.stmts then (.error ⟨b⟩, d)
    else if a ∉ d.stmts then (.error ⟨a⟩, d)
    else (.ok none, d.connect a b k)

def targets (d : Draft S) (l : Label) (k : EdgeClass) : List Label :=
  (d.log.filter fun e => e.source = l ∧ e.cls = k).map (·.target)

def sources (d : Draft S) (l : Label) (k : EdgeClass) : List Label :=
  (d.log.filter fun e => e.target = l ∧ e.cls = k).map (·.source)

def node (d : Draft S) (l : Label) (s : S) : Node S where
  label := l
  preds := ⟨d.sources l .notTaken, d.sources l .taken⟩
  succs := ⟨d.targets l .notTaken, d.targets l .taken⟩
  stmt := s

/-- The path-sensitive graph that is meant. -/
def graph (d : Draft S) : BranchGraph S := { nodes := d.stmts.map d.node, nextLabel := d.nextLabel }

def plainNode (d : Draft S) (l : Label) (s : S) : PlainNode S where
  label := l
  preds := (d.log.filter fun e => e.target = l).map (·.source)
  succs := (d.log.filter fun e => e.source = l).map (·.target)
  stmt := s

/-- The plain graph that is meant. -/
def plainGraph (d : Draft S) : PlainGraph S :=
  { nodes := d.stmts.map d.plainNode, nextLabel := d.nextLabel }

theorem graph_empty : ({} : Draft S).graph = .empty := by simp [graph, nextLabel, Graph.empty]

theorem plainGraph_empty : ({} : Draft S).plainGraph = .empty := by
  simp [plainGraph, nextLabel, Graph.empty]

/-- The log speaks of labels with statements only. -/
def Closed (d : Draft S) : Prop := ∀ e ∈ d.log, e.source ∈ d.stmts ∧ e.target ∈ d.stmts

theorem closed_empty : ({} : Draft S).Closed := fun _ he => nomatch he

variable {d : Draft S} {l x a b : Label} {s t : S} {k : EdgeClass}

theorem mem_targets : x ∈ d.targets l k ↔ ⟨l, x, k⟩ ∈ d.log := by
  simp only [targets, List.mem_map, List.mem_filter, decide_eq_true_eq]
  constructor
  · rintro ⟨e, ⟨he, rfl, rfl⟩, rfl⟩
    exact he
  · exact fun h => ⟨_, ⟨h, rfl, rfl⟩, rfl⟩

theorem mem_sources : x ∈ d.sources l k ↔ ⟨x, l, k⟩ ∈ d.log := by
  simp only [sources, List.mem_map, List.mem_filter, decide_eq_true_eq]
  constructor
  · rintro ⟨e, ⟨he, rfl, rfl⟩, rfl⟩
    exact he
  · exact fun h => ⟨_, ⟨h, rfl, rfl⟩, rfl⟩

@[simp] theorem preds_node : (d.node l s).preds.get k = d.sources l k := by cases k <;> rfl

@[simp] theorem succs_node : (d.node l s).succs.get k = d.targets l k := by cases k <;> rfl

@[simp] theorem place_stmts : (d.place l s).stmts = d.stmts.insert l s := rfl

theorem getElem?_graph : d.graph.nodes[x]? = d.stmts[x]?.map (d.node x) := Std.ExtTreeMap.getElem?_map

theorem getElem?_plainGraph : d.plainGraph.nodes[x]? = d.stmts[x]?.map (d.plainNode x) :=
  Std.ExtTreeMap.getElem?_map

theorem mem_graph : x ∈ d.graph.nodes ↔ x ∈ d.stmts := Std.ExtTreeMap.mem_map

/-- Striking a label from the log strikes it from every list that is read off the log and does not
belong to the label itself. -/
theorem map_filter_place {p : Edge → Bool} {other : Edge → Label}
    (h : ∀ e, p e = true → (e.source ≠ l ∧ e.target ≠ l ↔ other e ≠ l)) :
    ((d.place l s).log.filter p).map other = ((d.log.filter p).map other).filter (· ≠ l) := by
  simp only [place, List.filter_map, List.filter_filter]
  congr 1
  apply List.filter_congr
  intro e _
  by_cases hp : p e = true
  · simp [hp, h e hp]
  · simp [hp]

theorem sources_place (hx : x ≠ l) :
    (d.place l s).sources x k = (d.sources x k).filter (· ≠ l) :=
  map_filter_place fun e he => by
    obtain ⟨rfl, _⟩ := of_decide_eq_true he
    exact and_iff_left hx

theorem targets_place (hx : x ≠ l) :
    (d.place l s).targets x k = (d.targets x k).filter (· ≠ l) :=
  map_filter_place fun e he => by
    obtain ⟨rfl, _⟩ := of_decide_eq_true he
    exact and_iff_right hx

theorem sources_place_self : (d.place l s).sources l k = [] := by
  rw [List.eq_nil_iff_forall_not_mem]
  intro x hx
  have hkept := (List.mem_filter.mp (mem_sources.mp hx)).2
  simp at hkept

theorem targets_place_self : (d.place l s).targets l k = [] := by
  rw [List.eq_nil_iff_forall_not_mem]
  intro x hx
  have hkept := (List.mem_filter.mp (mem_targets.mp hx)).2
  simp at hkept

theorem node_place_self : (d.place l s).node l t = { label := l, stmt := t } := by
  refine Node.ext_get rfl (fun k => ?_) (fun k => ?_) rfl
  · rw [preds_node, sources_place_self]
    cases k <;> rfl
  · rw [succs_node, targets_place_self]
    cases k <;> rfl

theorem nextLabel_place : (d.place l s).nextLabel = max d.nextLabel l.following := by
  simp only [nextLabel, place, Std.ExtTreeMap.maxKey?_insert, Option.elim_some]
  cases d.stmts.maxKey? with
  | none => exact (Label.max_eq_right (UInt64.zero_le)).symm
  | some m =>
    by_cases h : m ≤ l
    · have hm : (compare m l).isLE = true := Std.isLE_compare.mpr h
      simp only [Option.elim_some, hm, if_true, Label.max_eq_right (Label.following_le h)]
    · have hm : (compare m l).isLE ≠ true := mt Std.isLE_compare.mp h
      have hle := Label.following_le (UInt64.le_of_lt (UInt64.not_le.mp h))
      simp only [Option.elim_some, if_neg hm, Label.max_eq_left hle]

theorem sources_connect (j : EdgeClass) : (d.connect a b k).sources x j =
    if b = x ∧ k = j then d.sources x j ++ [a] else d.sources x j := by
  simp only [sources, connect, List.filter_append, List.map_append]
  by_cases h : b = x ∧ k = j <;> simp [h]

theorem targets_connect (j : EdgeClass) : (d.connect a b k).targets x j =
    if a = x ∧ k = j then d.targets x j ++ [b] else d.targets x j := by
  simp only [targets, connect, List.filter_append, List.map_append]
  by_cases h : a = x ∧ k = j <;> simp [h]

namespace Closed

theorem place (h : d.Closed) : (d.place l s).Closed := by
  intro e he
  obtain ⟨he, _⟩ := List.mem_filter.mp he
  obtain ⟨hs, ht⟩ := h e he
  exact ⟨Std.ExtTreeMap.mem_insert.mpr (.inr hs), Std.ExtTreeMap.mem_insert.mpr (.inr ht)⟩

theorem perform (h : d.Closed) (e : Edit S) : (d.perform e).2.Closed := by
  cases e with
  | addNode s => exact h.place
  | insertNode l s => exact h.place
  | addEdge a b k =>
    rw [Draft.perform]
    split
    · exact h
    split
    · exact h
    · next hb ha =>
      intro e he
      rcases List.mem_append.mp he with he | he
      · exact h e he
      · obtain rfl := List.mem_singleton.mp he
        exact ⟨not_not.mp ha, not_not.mp hb⟩

end Closed
end Draft

/-- A path-sensitive graph says of every label what the draft says. -/
structure BranchGraph.Draws (g : BranchGraph S) (d : Draft S) : Prop where
  stmt : ∀ l : Label, g.nodes[l]?.map (·.stmt) = d.stmts[l]?
  label : ∀ {l : Label} {n : Node S}, g.nodes[l]? = some n → n.label = l
  succs : ∀ {l : Label} {n : Node S}, g.nodes[l]? = some n → ∀ k, n.succs.get k = d.targets l k
  preds : ∀ {l : Label} {n : Node S}, g.nodes[l]? = some n → ∀ k, n.preds.get k = d.sources l k
  inside : ∀ {l : Label} {n : Node S}, g.nodes[l]? = some n → ∀ x ∈ n.neighbours, x ∈ g.nodes

/-- A plain graph says of every label what the draft says, whatever the classes of its edges. -/
structure PlainGraph.Draws (g : PlainGraph S) (d : Draft S) : Prop where
  stmt : ∀ l : Label, g.nodes[l]?.map (·.stmt) = d.stmts[l]?
  label : ∀ {l : Label} {n : PlainNode S}, g.nodes[l]? = some n → n.label = l
  succs : ∀ {l : Label} {n : PlainNode S}, g.nodes[l]? = some n →
    n.succs = (d.log.filter fun e => e.source = l).map (·.target)
  preds : ∀ {l : Label} {n : PlainNode S}, g.nodes[l]? = some n →
    n.preds = (d.log.filter fun e => e.target = l).map (·.source)
  inside : ∀ {l : Label} {n : PlainNode S}, g.nodes[l]? = some n →
    ∀ x ∈ n.preds ++ n.succs, x ∈ g.nodes

end FlowAnalysis
