import Mathlib.Data.List.Basic
import Std.Data.String.ToNat
import FlowAnalysis.Graph.Drawing
import FlowAnalysis.Proofs.Incidence

/-! # Drawings can be read back

The text of a drawing falls into its lines again, whatever the statements say, as
long as none of them goes over a line. The empty line parts the nodes from the
edges, a label ends where its digits end, and what follows tells the kinds of
lines apart. So the text says of every label what its statement looks like and
which targets it lists in each class, and nothing else. Each entry of these
lists has one line. In a graph that was built an entry stands for an edge, which
is therefore drawn once although its target knows of it too.
-/
namespace FlowAnalysis
variable {S T : Type}

/-- Two lists that go on in the same way as long as a property holds, and stop at the same place, are
equal up to there and from there on. -/
theorem append_inj_of_stop {α : Type} {p : α → Bool} {as bs us vs : List α} (ha : ∀ a ∈ as, p a)
    (hb : ∀ b ∈ bs, p b) (hu : ∀ u ∈ us.head?, p u = false) (hv : ∀ v ∈ vs.head?, p v = false)
    (h : as ++ us = bs ++ vs) : as = bs ∧ us = vs := by
  have hstop : ∀ ws : List α, (∀ w ∈ ws.head?, p w = false) → ws.takeWhile p = [] := by
    intro ws hws
    cases ws with
    | nil => rfl
    | cons w ws => exact List.takeWhile_cons_of_neg (by simp [hws w rfl])
  have hfront : as = bs := by
    have htake := congrArg (List.takeWhile p) h
    rwa [List.takeWhile_append_of_pos ha, List.takeWhile_append_of_pos hb, hstop us hu, hstop vs hv,
      List.append_nil, List.append_nil] at htake
  subst hfront
  exact ⟨rfl, List.append_cancel_left h⟩

namespace Label
variable {l m : Label}

theorem isDigit_of_mem_toString {c : Char} (h : c ∈ (toString l).toList) : c.isDigit := by
  have hdigits : toString l = String.ofList (Nat.toDigits 10 l.toNat) := Nat.toString_eq_ofList_toDigits
  rw [hdigits, String.toList_ofList] at h
  exact Nat.isDigit_of_mem_toDigits (by decide) (by decide) h

theorem newline_not_mem_toString : '\n' ∉ (toString l).toList := fun h =>
  absurd (isDigit_of_mem_toString h) (by decide)

theorem toString_ne_nil (l : Label) : (toString l).toList ≠ [] := by
  have hdigits : toString l = String.ofList (Nat.toDigits 10 l.toNat) := Nat.toString_eq_ofList_toDigits
  rw [hdigits, String.toList_ofList]
  exact Nat.toDigits_ne_nil

theorem toString_injective (h : toString l = toString m) : l = m := UInt64.toNat_inj.mp (Nat.repr_inj.mp h)

/-- A label ends where its digits end. -/
theorem digits_append_inj {us vs : List Char} (hu : ∀ u ∈ us.head?, u.isDigit = false)
    (hv : ∀ v ∈ vs.head?, v.isDigit = false) (h : (toString l).toList ++ us = (toString m).toList ++ vs) :
    l = m ∧ us = vs := by
  obtain ⟨hlabel, hrest⟩ := append_inj_of_stop (p := Char.isDigit) (fun _ => isDigit_of_mem_toString)
    (fun _ => isDigit_of_mem_toString) hu hv h
  exact ⟨toString_injective (String.toList_inj.mp hlabel), hrest⟩

end Label

namespace Drawing
variable {nodes : LabelMap (Node S)} {nodes' : LabelMap (Node T)} {text : S → String}
  {text' : T → String} {l m : Label} {k : EdgeClass} {s t : String} {e : Edge}

/-- No statement goes over a line. -/
def OneLine (nodes : LabelMap (Node S)) (text : S → String) : Prop :=
  ∀ (l : Label) (n : Node S), nodes[l]? = some n → '\n' ∉ (text n.stmt).toList

/-- What a drawing shows of each label: the text of its statement, and its targets in each class. -/
def shown (nodes : LabelMap (Node S)) (text : S → String) : LabelMap (String × PerClass (List Label)) :=
  nodes.map fun _ n => (text n.stmt, n.succs)

/-- The entries of the lists of targets, as edges, in the order in which they are drawn. -/
def drawn (nodes : LabelMap (Node S)) : List Edge := LabelMap.entries Node.succs nodes

def line (e : Edge) : String := edgeLine e.source e.target e.cls

/-- The lines of a text. What follows the last line feed counts as a line, even if it is empty. -/
def textLines (s : String) : List String := (s.toList.splitOn '\n').map String.ofList

/-- What a line says of the class of its edge. -/
def mark : EdgeClass → String
  | .notTaken => ""
  | .taken => "[label=\"T\"]"

theorem toList_nodeLine : (nodeLine l s).toList =
    "  Node_".toList ++ ((toString l).toList ++ ("[label=\"".toList ++ (s.toList ++ "\"]".toList))) := by
  simp [nodeLine, name]

theorem toList_line : (line e).toList = "  Node_".toList ++ ((toString e.source).toList ++
    (" -> Node_".toList ++ ((toString e.target).toList ++ (mark e.cls).toList))) := by
  obtain ⟨a, b, k⟩ := e
  cases k <;> simp [line, edgeLine, name, mark]

theorem isDigit_of_mem_head_mark {c : Char} (h : c ∈ (mark k).toList.head?) : c.isDigit = false := by
  cases k with
  | notTaken => simp [mark] at h
  | taken =>
    obtain rfl : c = '[' := by simpa [mark, eq_comm] using h
    rfl

theorem nodeLine_inj (h : nodeLine l s = nodeLine m t) : l = m ∧ s = t := by
  have hlist := congrArg String.toList h
  rw [toList_nodeLine, toList_nodeLine] at hlist
  obtain ⟨hlabel, hrest⟩ := Label.digits_append_inj (by simp) (by simp) (List.append_cancel_left hlist)
  exact ⟨hlabel, String.toList_inj.mp (List.append_cancel_right (List.append_cancel_left hrest))⟩

theorem line_injective : Function.Injective line := by
  intro d e h
  have hlist := congrArg String.toList h
  rw [toList_line, toList_line] at hlist
  obtain ⟨hsource, hrest⟩ := Label.digits_append_inj (by simp) (by simp) (List.append_cancel_left hlist)
  obtain ⟨htarget, hcls⟩ := Label.digits_append_inj (fun _ => isDigit_of_mem_head_mark)
    (fun _ => isDigit_of_mem_head_mark) (List.append_cancel_left hrest)
  obtain ⟨a, b, k⟩ := d
  obtain ⟨a', b', k'⟩ := e
  obtain rfl : a = a' := hsource
  obtain rfl : b = b' := htarget
  obtain rfl : k = k' := by cases k <;> cases k' <;> simp_all [mark]
  rfl

theorem nodeLine_ne_line : nodeLine l s ≠ line e := by
  intro h
  have hlist := congrArg String.toList h
  rw [toList_nodeLine, toList_line] at hlist
  obtain ⟨_, hrest⟩ := Label.digits_append_inj (by simp) (by simp) (List.append_cancel_left hlist)
  simp at hrest

theorem nodeLine_ne_empty : nodeLine l s ≠ "" := by
  intro h
  have hlist := congrArg String.toList h
  rw [toList_nodeLine] at hlist
  simp at hlist

theorem line_ne_empty : line e ≠ "" := by
  intro h
  have hlist := congrArg String.toList h
  rw [toList_line] at hlist
  simp at hlist

/-- The lines of taken edges end with the mark, the others with a digit. -/
theorem mark_suffix_iff : (mark .taken).toList <:+ (line e).toList ↔ e.cls = .taken := by
  rw [toList_line]
  constructor
  · rintro ⟨front, hfront⟩
    cases hcls : e.cls with
    | taken => rfl
    | notTaken =>
      have hends := congrArg List.getLast? hfront
      rw [hcls, show (mark .notTaken).toList = [] from rfl, List.append_nil, ← List.append_assoc,
        ← List.append_assoc, List.getLast?_append_of_ne_nil _ (Label.toString_ne_nil e.target),
        List.getLast?_append_of_ne_nil _ (by simp [mark])] at hends
      have hbracket : ']' ∈ (toString e.target).toList := List.mem_of_getLast? hends.symm
      exact absurd (Label.isDigit_of_mem_toString hbracket) (by decide)
  · intro h
    rw [h]
    have hdigits := List.suffix_append (toString e.target).toList (mark .taken).toList
    exact List.suffix_append_of_suffix (List.suffix_append_of_suffix (List.suffix_append_of_suffix hdigits))

theorem newline_not_mem_nodeLine (h : '\n' ∉ s.toList) : '\n' ∉ (nodeLine l s).toList := by
  rw [toList_nodeLine]
  simp [h, Label.newline_not_mem_toString]

theorem newline_not_mem_line : '\n' ∉ (line e).toList := by
  have hmark : '\n' ∉ (mark e.cls).toList := by cases e.cls <;> simp [mark]
  rw [toList_line]
  simp [Label.newline_not_mem_toString, hmark]

/-- A text that ends each of its lines falls into them again. -/
theorem textLines_join {ls : List String} (h : ∀ l ∈ ls, '\n' ∉ l.toList) :
    textLines (String.join (ls.map (· ++ "\n"))) = ls ++ [""] := by
  induction ls with
  | nil => rfl
  | cons l ls ih =>
    have hline : '\n' ∉ l.toList := h l List.mem_cons_self
    have hsplit := List.splitOn_append_cons_self_of_not_mem hline (String.join (ls.map (· ++ "\n"))).toList
    have hrest := ih fun l hl => h l (List.mem_cons_of_mem _ hl)
    rw [textLines] at hrest ⊢
    rw [List.map_cons, String.join_cons, String.toList_append, String.toList_append, List.append_assoc,
      show "\n".toList = ['\n'] from rfl, List.singleton_append, hsplit, List.map_cons, hrest,
      String.ofList_toList]
    rfl

/-- The edges have their lines in the order in which the nodes list them. -/
theorem flatMap_edgeLines (nodes : LabelMap (Node S)) :
    (nodes.toList.flatMap fun e => edgeLines e.1 e.2) = (drawn nodes).map line := by
  simp only [drawn, LabelMap.entries, edgeLines, List.map_flatMap, List.map_map]
  rfl

/-- What stands before the empty line. -/
def nodeLines (nodes : LabelMap (Node S)) (text : S → String) : List String :=
  "digraph CFG \x7b" :: nodes.toList.map fun e => nodeLine e.1 (text e.2.stmt)

theorem lines_eq (nodes : LabelMap (Node S)) (text : S → String) :
    lines nodes text = nodeLines nodes text ++ "" :: ((drawn nodes).map line ++ ["\x7d"]) := by
  rw [lines, flatMap_edgeLines]
  simp [nodeLines]

theorem mem_nodeLines {x : String} : x ∈ nodeLines nodes text ↔
    x = "digraph CFG \x7b" ∨ ∃ l n, nodes[l]? = some n ∧ nodeLine l (text n.stmt) = x := by
  simp only [nodeLines, List.mem_cons, List.mem_map, Prod.exists, Std.ExtTreeMap.mem_toList_iff_getElem?_eq_some]

theorem newline_not_mem_lines (h : OneLine nodes text) : ∀ x ∈ lines nodes text, '\n' ∉ x.toList := by
  intro x hx
  rw [lines_eq, List.mem_append, mem_nodeLines, List.mem_cons, List.mem_append, List.mem_singleton] at hx
  rcases hx with (rfl | ⟨l, n, hn, rfl⟩) | rfl | hx | rfl
  · simp
  · exact newline_not_mem_nodeLine (h l n hn)
  · simp
  · obtain ⟨e, _, rfl⟩ := List.mem_map.mp hx
    exact newline_not_mem_line
  · simp

theorem textLines_render (h : OneLine nodes text) : textLines (render nodes text) = lines nodes text ++ [""] :=
  textLines_join (newline_not_mem_lines h)

theorem empty_not_mem_nodeLines : "" ∉ nodeLines nodes text := by
  rw [mem_nodeLines]
  rintro (h | ⟨l, n, _, h⟩)
  · simp at h
  · exact nodeLine_ne_empty h

theorem line_not_mem_nodeLines : line e ∉ nodeLines nodes text := by
  rw [mem_nodeLines]
  rintro (h | ⟨l, n, _, h⟩)
  · have hlist := congrArg String.toList h
    rw [toList_line] at hlist
    simp at hlist
  · exact nodeLine_ne_line h

/-- The lines of the nodes tell what each statement looks like. -/
theorem texts_of_nodeLines (h : nodeLines nodes text = nodeLines nodes' text') :
    (nodes.map fun _ n => text n.stmt) = nodes'.map fun _ n => text' n.stmt := by
  have hlabelled : Function.Injective fun e : Label × String => nodeLine e.1 e.2 := fun e e' he =>
    Prod.ext_iff.mpr (nodeLine_inj he)
  rw [← Std.ExtTreeMap.toList_inj, Std.ExtTreeMap.toList_map, Std.ExtTreeMap.toList_map]
  apply List.map_injective_iff.mpr hlabelled
  rw [List.map_map, List.map_map]
  exact List.tail_eq_of_cons_eq h

/-- The lines of the nodes and the edges tell all that is shown, and nothing else. -/
theorem shown_eq_iff : shown nodes text = shown nodes' text' ↔
    nodeLines nodes text = nodeLines nodes' text' ∧ drawn nodes = drawn nodes' := by
  constructor
  · intro h
    have hshown := congrArg Std.ExtTreeMap.toList h
    rw [shown, shown, Std.ExtTreeMap.toList_map, Std.ExtTreeMap.toList_map] at hshown
    have hnodes := congrArg (List.map fun e => nodeLine e.1 e.2.1) hshown
    have hedges := congrArg (List.flatMap fun e => EdgeClass.all.flatMap fun k =>
      (e.2.2.get k).map fun t => (⟨e.1, t, k⟩ : Edge)) hshown
    rw [List.map_map, List.map_map] at hnodes
    rw [List.flatMap_map, List.flatMap_map] at hedges
    exact ⟨congrArg (List.cons _) hnodes, hedges⟩
  · rintro ⟨hnodes, hedges⟩
    apply Std.ExtTreeMap.ext_getElem?
    intro l
    have htext := congrArg (·[l]?) (texts_of_nodeLines hnodes)
    have hlisted : ∀ k, LabelMap.listed Node.succs nodes l k = LabelMap.listed Node.succs nodes' l k := by
      intro k
      rw [← LabelMap.map_filter_entries, ← LabelMap.map_filter_entries]
      exact congrArg (fun es : List Edge => (es.filter fun e => e.source = l ∧ e.cls = k).map (·.target)) hedges
    simp only [Std.ExtTreeMap.getElem?_map, shown] at htext ⊢
    cases hn : nodes[l]? <;> cases hn' : nodes'[l]?
    · rfl
    · simp [hn, hn'] at htext
    · simp [hn, hn'] at htext
    · next n n' =>
      have hsuccs : n.succs = n'.succs := PerClass.ext_get fun k => by
        simpa [LabelMap.listed, hn, hn'] using hlisted k
      have hstmt : text n.stmt = text' n'.stmt := by simpa [hn, hn'] using htext
      simp [hstmt, hsuccs]

/-- Two drawings are the same text if they show the same, and in no other case. -/
theorem render_eq_iff (h : OneLine nodes text) (h' : OneLine nodes' text') :
    render nodes text = render nodes' text' ↔ shown nodes text = shown nodes' text' := by
  rw [shown_eq_iff]
  constructor
  · intro hrender
    have hlines := congrArg textLines hrender
    rw [textLines_render h, textLines_render h', lines_eq, lines_eq] at hlines
    have hfull : ∀ {T : Type} (nodes : LabelMap (Node T)) (text : T → String),
        ∀ x ∈ nodeLines nodes text, decide (x ≠ "") = true := fun nodes text x hx =>
      decide_eq_true (ne_of_mem_of_not_mem hx empty_not_mem_nodeLines)
    obtain ⟨hnodes, hedges⟩ := append_inj_of_stop (hfull nodes text) (hfull nodes' text') (by simp) (by simp)
      (List.append_cancel_right hlines)
    have hdrawn := List.append_cancel_right (List.tail_eq_of_cons_eq hedges)
    exact ⟨hnodes, List.map_injective_iff.mpr line_injective hdrawn⟩
  · rintro ⟨hnodes, hedges⟩
    rw [render, render, lines_eq, lines_eq, hnodes, hedges]

/-- What the text of a drawing says of the edges. They stand together behind the nodes, one line for each
entry of a list of targets, by ascending labels and the taken ones of a label last. -/
structure DrawsEdges (nodes : LabelMap (Node S)) (text : S → String) : Prop where
  together : ∃ front, (∀ e, line e ∉ front) ∧
    textLines (render nodes text) = front ++ ((drawn nodes).map line ++ ["\x7d", ""])
  grouped : (drawn nodes).Pairwise Edge.Precedes
  entries : ∀ l k, ((drawn nodes).filter fun e => e.source = l ∧ e.cls = k).map (·.target) =
    LabelMap.listed Node.succs nodes l k

theorem drawsEdges (h : OneLine nodes text) : DrawsEdges nodes text where
  together := by
    refine ⟨nodeLines nodes text ++ [""], fun e he => ?_, ?_⟩
    · rcases List.mem_append.mp he with he | he
      · exact line_not_mem_nodeLines he
      · exact line_ne_empty (List.mem_singleton.mp he)
    · rw [textLines_render h, lines_eq]
      simp
  grouped := LabelMap.pairwise_entries
  entries := fun _ _ => LabelMap.map_filter_entries

/-- The drawing of a graph has an edge for every edge that was added and has not been struck since. -/
theorem drawn_run (es : List (Edit S)) : (drawn (Edit.run BranchGraph.perform .empty es).2.nodes).Perm
      (Edit.run Draft.perform {} es).2.log ∧
    (drawn (Edit.run PlainGraph.perform .empty es).2.classified).Perm
      (Edit.run Draft.perform {} es).2.unclassified.log := by
  have hclosed := Edit.run_preserves Draft.Closed.perform (Draft.closed_empty (S := S)) es
  have hbranching := Edit.run_map Draft.graph BranchGraph.perform_graph Draft.Closed.perform Draft.closed_empty es
  have hplain :=
    Edit.run_map Draft.plainGraph PlainGraph.perform_plainGraph Draft.Closed.perform Draft.closed_empty es
  rw [Draft.graph_empty] at hbranching
  rw [Draft.plainGraph_empty] at hplain
  rw [hbranching, hplain]
  refine ⟨hclosed.entries_succs, ?_⟩
  have hnodes := congrArg Graph.nodes (Draft.branching_plainGraph (d := (Edit.run Draft.perform {} es).2))
  have hentries := hclosed.unclassified.entries_succs
  rwa [← hnodes] at hentries

/-- A drawing is faithful. Statements without line feeds cannot make two drawings alike that show
different things; every edge is drawn where it belongs, with its class, and once in a graph that was
built, although the lists at its other end have it too. -/
theorem render_faithful :
    (∀ {nodes : LabelMap (Node S)} {nodes' : LabelMap (Node T)} {text : S → String} {text' : T → String},
      OneLine nodes text → OneLine nodes' text' →
      (render nodes text = render nodes' text' ↔ shown nodes text = shown nodes' text')) ∧
    (∀ {nodes : LabelMap (Node S)} {text : S → String}, OneLine nodes text → DrawsEdges nodes text) ∧
    (Function.Injective line ∧ ∀ e, (mark .taken).toList <:+ (line e).toList ↔ e.cls = .taken) ∧
    (∀ es : List (Edit S), (drawn (Edit.run BranchGraph.perform .empty es).2.nodes).Perm
        (Edit.run Draft.perform {} es).2.log ∧
      (drawn (Edit.run PlainGraph.perform .empty es).2.classified).Perm
        (Edit.run Draft.perform {} es).2.unclassified.log) ∧
    ∀ g : FlowGraph S, g.Built →
      (drawn g.nodes).Perm ((LabelMap.entries Node.preds g.nodes).map Edge.flip) :=
  ⟨render_eq_iff, drawsEdges, ⟨line_injective, fun _ => mark_suffix_iff⟩, drawn_run,
    fun _ => FlowGraph.Built.entries_perm⟩

/-- Two labels with parallel edges in either class and a loop. -/
def tangle : BranchGraph Bool := (Edit.run BranchGraph.perform .empty [.addNode true, .addNode false,
  .addEdge 0 1 .taken, .addEdge 1 1 .notTaken, .addEdge 0 1 .taken, .addEdge 0 1 .notTaken]).2

/-- The tangle without the loop. -/
def untangled : BranchGraph Bool := (Edit.run BranchGraph.perform .empty [.addNode true, .addNode false,
  .addEdge 0 1 .taken, .addEdge 0 1 .taken, .addEdge 0 1 .notTaken]).2

/-- Statements that look like the lines around them. -/
def misleading (s : Bool) : String := if s then "\"]  Node_1 -> Node_1" else "Node_0 -> Node_1[label=\"T\"]"

theorem oneLine_misleading (nodes : LabelMap (Node Bool)) : OneLine nodes misleading := by
  intro l n _
  cases n.stmt <;> simp [misleading]

theorem render_faithful_tangle : OneLine tangle.nodes misleading ∧ OneLine untangled.nodes misleading ∧
    render tangle.nodes misleading ≠ render untangled.nodes misleading ∧
    (textLines (render tangle.nodes misleading)).count (line ⟨0, 1, .taken⟩) = 2 ∧
    (drawn (FlowGraph.reverse ⟨[0], tangle.labels, tangle.nodes⟩).nodes).Perm
      [⟨1, 0, .notTaken⟩, ⟨1, 0, .taken⟩, ⟨1, 0, .taken⟩, ⟨1, 1, .notTaken⟩] := by
  obtain ⟨hsame, hedges, ⟨hinjective, _⟩, _, hboth⟩ := render_faithful (S := Bool) (T := Bool)
  have htangle := oneLine_misleading tangle.nodes
  have huntangled := oneLine_misleading untangled.nodes
  refine ⟨htangle, huntangled, ?differ, ?parallel, ?reversed⟩
  case differ =>
    rw [ne_eq, hsame htangle huntangled]
    intro hshown
    have hloop := congrArg (fun m => m[(1 : Label)]?.map Prod.snd) hshown
    simp only [shown, Std.ExtTreeMap.getElem?_map] at hloop
    exact absurd hloop (by decide +kernel)
  case parallel =>
    obtain ⟨front, hfront, htext⟩ := (hedges htangle).together
    rw [htext, List.count_append, List.count_append, List.count_eq_zero.mpr (hfront _),
      List.count_map_of_injective _ _ hinjective]
    decide +kernel
  case reversed =>
    have hentries : [0] ⊆ tangle.labels := by decide +kernel
    have hperm := hboth _ (.reverse (.branching (.run _) fun _ hl => hentries hl))
    exact hperm.trans (.of_eq (by decide +kernel))

end Drawing
end FlowAnalysis
