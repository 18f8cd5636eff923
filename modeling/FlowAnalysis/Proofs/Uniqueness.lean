import FlowAnalysis.Proofs.Acyclic
import FlowAnalysis.Proofs.PlainRuns
import FlowAnalysis.Proofs.Solutions

/-! # Acyclic graphs have one answer

If something flows along every edge, the equations determine what flows into a
label by what flows into its predecessors. Where no walk leads back they have
one solution at most, and every run comes to its end with a solution. So the
visiting order does not matter, nor what the run starts from, and the facts need
not have an order at all; it is enough that comparing does not confuse them.
Along the taken edges of plain nodes, of which there are none, nothing has to
flow.
-/
namespace FlowAnalysis
variable {S F R T : Type}

/-- There is one solution, and every run without a bound comes to its end with it, after so many steps
in either visiting order. -/
def OneAnswer (solution : R → Prop) (run : Settings → Nat → Report F R) : Prop :=
  ∃ answer, (∀ flows, solution flows ↔ flows = answer) ∧
    ∃ most, ∀ settings : Settings, settings.nodeLimit = 0 → ∀ steps, most < steps →
      (run settings steps).ending = .settled ∧ (run settings steps).flows = answer

namespace OneAnswer
variable {solution : R → Prop} {run : Settings → Nat → Report F R}

theorem of_settles {most : Nat}
    (hends : ∀ settings : Settings, settings.nodeLimit = 0 → ∀ steps, most < steps →
      (run settings steps).ending = .settled)
    (hsolves : ∀ settings steps, (run settings steps).ending = .settled →
      solution (run settings steps).flows)
    (hone : ∀ {a b}, solution a → solution b → a = b) : OneAnswer solution run := by
  have hanswer := hsolves {} _ (hends {} rfl _ (Nat.lt_succ_self most))
  refine ⟨_, fun flows => ⟨fun h => hone h hanswer, fun h => h ▸ hanswer⟩, most, ?_⟩
  intro settings hlimit steps hsteps
  have hend := hends settings hlimit steps hsteps
  exact ⟨hend, hone (hsolves settings steps hend) hanswer⟩

theorem mapFlows (h : OneAnswer solution run) {f : R → T} {g : T → R} (hg : ∀ a, g (f a) = a)
    (hf : ∀ b, f (g b) = b) :
    OneAnswer (fun flows => solution (g flows)) fun settings steps => (run settings steps).mapFlows f := by
  obtain ⟨answer, hone, most, hruns⟩ := h
  refine ⟨f answer, fun flows => (hone (g flows)).trans ?_, most, fun settings hlimit steps hsteps => ?_⟩
  · constructor
    · rintro rfl
      exact (hf flows).symm
    · rintro rfl
      exact hg answer
  · obtain ⟨hend, hflows⟩ := hruns settings hlimit steps hsteps
    exact ⟨hend, congrArg f hflows⟩

end OneAnswer

namespace Problem
variable {p : Problem S F} {a b : Flows F} {l : Label} {n : Node S} {k : EdgeClass}

/-- Exactly the labels of the graph have slots, and the equations hold at each of them. -/
structure Solution (p : Problem S F) (flows : Flows F) : Prop where
  covers : flows.Covers p.graph
  balanced : ∀ {l : Label} {n : Node S}, p.graph.nodes[l]? = some n → p.Balanced flows l n

/-- Something flows along every edge, whatever flows into its source. -/
def FlowsOn (p : Problem S F) : Prop :=
  ∀ {l : Label} {n : Node S}, p.graph.nodes[l]? = some n → ∀ {k}, n.succs.get k ≠ [] →
    ∀ x, ((p.transfer n x).get k).isSome

theorem Balanced.slot_eq (ha : p.Balanced a l n) (hb : p.Balanced b l n)
    (hin : a.incoming[l]? = b.incoming[l]?) (hflows : ∀ x, ((p.transfer n x).get k).isSome) :
    (a.outgoing.get k)[l]? = (b.outgoing.get k)[l]? := by
  obtain ⟨xs, _, hxs⟩ := ha.incoming
  obtain ⟨y, hy⟩ := Option.isSome_iff_exists.mp (hflows (mergeAll p.merge p.initial xs))
  rw [ha.outgoing hxs hy, hb.outgoing (hin ▸ hxs) hy]

/-- By induction along the edges: what flows into a label is merged from the slots of its
predecessors. -/
theorem Solution.incoming_eq_of_acyclic (ha : p.Solution a) (hb : p.Solution b) (hv : p.graph.Valid)
    (hacyclic : p.graph.Acyclic) (hflows : p.FlowsOn) : a.incoming = b.incoming := by
  apply Std.ExtTreeMap.ext_getElem?
  intro l
  induction l using hacyclic.wellFounded_targets.induction with
  | _ l ih =>
    by_cases hl : l ∈ p.graph.nodes
    · obtain ⟨n, hn⟩ := LabelMap.exists_of_mem hl
      have harriving : p.arriving a l n = p.arriving b l n := arriving_congr fun k q hq => by
        obtain ⟨m, hm, hsucc⟩ := hv.exists_pred hn hq
        have hin := ih q (FlowGraph.mem_targets.mpr ⟨m, hm, k, hsucc⟩)
        exact (ha.balanced hm).slot_eq (hb.balanced hm) hin (hflows hm (List.ne_nil_of_mem hsucc))
      obtain ⟨xs, hxs, hax⟩ := (ha.balanced hn).incoming
      obtain ⟨ys, hys, hby⟩ := (hb.balanced hn).incoming
      obtain rfl : xs = ys := List.map_injective_iff.mpr (Option.some_injective F)
        (hxs.symm.trans (harriving.trans hys))
      rw [hax, hby]
    · rw [Std.ExtTreeMap.getElem?_eq_none (mt (ha.covers.incoming l).mp hl),
        Std.ExtTreeMap.getElem?_eq_none (mt (hb.covers.incoming l).mp hl)]

/-- A class along which something always flows has the same slots in both solutions. -/
theorem Solution.outgoing_eq (ha : p.Solution a) (hb : p.Solution b) (hin : a.incoming = b.incoming)
    (hflows : ∀ n x, ((p.transfer n x).get k).isSome) : a.outgoing.get k = b.outgoing.get k := by
  apply Std.ExtTreeMap.ext_getElem?
  intro l
  by_cases hl : l ∈ p.graph.nodes
  · obtain ⟨n, hn⟩ := LabelMap.exists_of_mem hl
    exact (ha.balanced hn).slot_eq (hb.balanced hn) (by rw [hin]) (hflows n)
  · rw [Std.ExtTreeMap.getElem?_eq_none (mt (ha.covers.outgoing k l).mp hl),
      Std.ExtTreeMap.getElem?_eq_none (mt (hb.covers.outgoing k l).mp hl)]

variable [BEq F]

theorem AtRest.solution (h : p.AtRest a) (hequal : Discerning F) : p.Solution a :=
  ⟨h.covers, fun hn => (h.upToDate hn).balanced hequal⟩

theorem solve_oneAnswer (hequal : Discerning F) (hv : p.graph.violation? = .ok none)
    (hacyclic : p.graph.Acyclic) (hf : p.Steady) (hflows : ∀ n x k, ((p.transfer n x).get k).isSome)
    (start : Flows F) : OneAnswer p.Solution fun settings steps => p.solve settings steps start := by
  refine .of_settles (fun _ hlimit _ => solve_settles_of_acyclic hv hacyclic hlimit)
    (fun _ _ h => (atRest_of_settled hv hf h).solution hequal) ?_
  intro a b ha hb
  have hin := ha.incoming_eq_of_acyclic hb (FlowGraph.violation?_eq_ok_none_iff.mp hv) hacyclic
    fun _ _ _ x => hflows _ x _
  exact Flows.ext_get hin fun k => ha.outgoing_eq hb hin fun n x => hflows n x k

end Problem

namespace PlainProblem
variable {p : PlainProblem S F} {sources : PlainNode S → List Label} {merged passed : LabelMap F}

/-- What stands in the slots of these labels, in the order in which it is merged, and the boundary at
an entry. -/
def arriving (p : PlainProblem S F) (passed : LabelMap F) (l : Label) (ls : List Label) :
    List (Option F) :=
  (ls.map fun q => passed[q]?) ++ if l ∈ p.entries then [some p.boundary] else []

/-- The equations of plain nodes: at each label the facts from its sources have been merged and have
passed through the node. Forwards the sources are the predecessors, backwards they are the
successors. -/
structure Solves (p : PlainProblem S F) (sources : PlainNode S → List Label)
    (merged passed : LabelMap F) : Prop where
  mem_merged : ∀ l, l ∈ merged ↔ l ∈ p.nodes
  mem_passed : ∀ l, l ∈ passed ↔ l ∈ p.nodes
  gathers : ∀ {l : Label} {n : PlainNode S}, p.nodes[l]? = some n → ∃ xs : List F,
    p.arriving passed l (sources n) = xs.map some ∧ merged[l]? = some (mergeAll p.merge p.initial xs)
  passes : ∀ {l : Label} {n : PlainNode S} {x : F}, p.nodes[l]? = some n → merged[l]? = some x →
    passed[l]? = some (p.flow 0 n x)

theorem arriving_classify {flows : Flows F} {l : Label} {n : PlainNode S} :
    p.forward.arriving flows l n.classify = p.arriving flows.outgoing.notTaken l n.preds := by
  rw [Problem.arriving, PlainNode.classify, List.map_nil, List.append_nil]
  rfl

theorem forward_solution_iff {flows : Flows F} : p.forward.Solution flows ↔
    p.Solves PlainNode.preds flows.incoming flows.outgoing.notTaken ∧
      ∀ l, l ∈ flows.outgoing.taken ↔ l ∈ p.nodes := by
  have hnodes : ∀ l, l ∈ p.forward.graph.nodes ↔ l ∈ p.nodes := fun l => Std.ExtTreeMap.mem_map
  have hfound : ∀ {l : Label} {n : PlainNode S}, p.nodes[l]? = some n →
      p.forward.graph.nodes[l]? = some n.classify := fun hn =>
    LabelMap.getElem?_map_eq_some_iff.mpr ⟨_, hn, rfl⟩
  constructor
  · intro h
    refine ⟨⟨fun l => (h.covers.incoming l).trans (hnodes l),
      fun l => (h.covers.outgoing .notTaken l).trans (hnodes l), fun hn => ?_, fun hn hx => ?_⟩,
      fun l => (h.covers.outgoing .taken l).trans (hnodes l)⟩
    · exact arriving_classify ▸ (h.balanced (hfound hn)).incoming
    · exact (h.balanced (hfound hn)).outgoing (k := .notTaken) hx rfl
  · rintro ⟨h, htaken⟩
    refine ⟨⟨fun l => (h.mem_merged l).trans (hnodes l).symm, fun k l => ?_⟩, fun {l m} hm => ?_⟩
    · cases k with
      | notTaken => exact (h.mem_passed l).trans (hnodes l).symm
      | taken => exact (htaken l).trans (hnodes l).symm
    · obtain ⟨n, hn, rfl⟩ := LabelMap.getElem?_map_eq_some_iff.mp hm
      refine ⟨arriving_classify ▸ h.gathers hn, fun {k x y} hx hy => ?_⟩
      cases k with
      | notTaken => exact Option.some.inj hy ▸ h.passes hn hx
      | taken => cases hy

theorem turned_solves_iff : p.turned.Solves PlainNode.preds merged passed ↔
    p.Solves PlainNode.succs merged passed := by
  have hnodes : ∀ l, l ∈ p.turned.nodes ↔ l ∈ p.nodes := fun l => Std.ExtTreeMap.mem_map
  have hfound : ∀ {l : Label} {n : PlainNode S}, p.nodes[l]? = some n →
      p.turned.nodes[l]? = some n.reverse := fun hn =>
    LabelMap.getElem?_map_eq_some_iff.mpr ⟨_, hn, rfl⟩
  constructor
  · intro h
    exact ⟨fun l => (h.mem_merged l).trans (hnodes l), fun l => (h.mem_passed l).trans (hnodes l),
      fun hn => h.gathers (hfound hn), fun hn => h.passes (hfound hn)⟩
  · intro h
    refine ⟨fun l => (h.mem_merged l).trans (hnodes l).symm,
      fun l => (h.mem_passed l).trans (hnodes l).symm, fun hm => ?_, fun hm hx => ?_⟩
    · obtain ⟨n, hn, rfl⟩ := LabelMap.getElem?_map_eq_some_iff.mp hm
      exact h.gathers hn
    · obtain ⟨n, hn, rfl⟩ := LabelMap.getElem?_map_eq_some_iff.mp hm
      exact h.passes hn hx

variable [BEq F]

theorem analyzeForward_oneAnswer (hequal : Discerning F) (hv : p.forward.graph.violation? = .ok none)
    (hacyclic : p.forward.graph.Acyclic) (hf : ∀ tick, p.flow tick = p.flow 0) :
    OneAnswer (fun flows => p.Solves PlainNode.preds flows.incoming flows.outgoing)
      p.analyzeForward := by
  have hvalid := FlowGraph.violation?_eq_ok_none_iff.mp hv
  have hsteady : p.forward.Steady := fun tick => by
    funext n x
    exact congrArg (fun y => PerClass.mk (some y) none) (congrFun (congrFun (hf tick) n.plain) x)
  refine .of_settles (fun _ hlimit _ => Problem.solve_settles_of_acyclic hv hacyclic hlimit)
    (fun _ _ h => (forward_solution_iff.mp ((Problem.atRest_of_settled hv hsteady h).solution hequal)).1) ?_
  intro a b ha hb
  -- The taken slots are no part of the answer, so they may hold anything.
  have hforward : ∀ {flows : PlainFlows F}, p.Solves PlainNode.preds flows.incoming flows.outgoing →
      p.forward.Solution ⟨flows.incoming, ⟨flows.outgoing, flows.outgoing⟩⟩ := fun h =>
    forward_solution_iff.mpr ⟨h, h.mem_passed⟩
  have hflows : p.forward.FlowsOn := by
    intro l m hm k hk x
    obtain ⟨n, hn, rfl⟩ := LabelMap.getElem?_map_eq_some_iff.mp hm
    cases k with
    | notTaken => rfl
    | taken => exact absurd rfl hk
  have hin := (hforward ha).incoming_eq_of_acyclic (hforward hb) hvalid hacyclic hflows
  have hout := (hforward ha).outgoing_eq (k := .notTaken) (hforward hb) hin fun _ _ => rfl
  cases a
  cases b
  simp_all [PerClass.get]

theorem analyzeBackward_oneAnswer (hequal : Discerning F) (hv : p.forward.graph.violation? = .ok none)
    (hacyclic : p.forward.graph.Acyclic) (hf : ∀ tick, p.flow tick = p.flow 0) :
    OneAnswer (fun flows => p.Solves PlainNode.succs flows.outgoing flows.incoming)
      p.analyzeBackward := by
  have hgraph : p.turned.forward.graph = p.forward.graph.reverse := backward_eq_turned ▸ backward_graph
  have hvalid := FlowGraph.violation?_eq_ok_none_iff.mp hv
  have hturned : OneAnswer
      (fun flows => p.turned.Solves PlainNode.preds flows.incoming flows.outgoing)
      p.turned.analyzeForward := by
    refine analyzeForward_oneAnswer hequal ?_ ?_ fun tick => ?_
    · exact FlowGraph.violation?_eq_ok_none_iff.mpr (hgraph ▸ hvalid.reverse)
    · exact hgraph ▸ hacyclic.reverse hvalid
    · funext n x
      exact congrFun (congrFun (hf tick) n.reverse) x
  have hback := hturned.mapFlows (f := PlainFlows.exchange) (g := PlainFlows.exchange) (fun _ => rfl)
    fun _ => rfl
  simp only [turned_solves_iff] at hback
  have hrun : p.analyzeBackward = fun settings steps =>
      (p.turned.analyzeForward settings steps).mapFlows PlainFlows.exchange := by
    funext settings steps
    exact analyzeBackward_eq_turned
  exact hrun ▸ hback

/-- The not-taken edges of the stairs. What arrives at a label is read as the digits of a numeral. -/
def numerals : PlainProblem Unit Nat where
  entries := FlowGraph.stairs.entries
  ids := FlowGraph.stairs.ids
  nodes := FlowGraph.stairs.nodes.map fun _ n => n.plain
  merge x y := 10 * x + y
  flow _ n x := x + n.label.toNat
  initial := 0
  boundary := 7

end PlainProblem

/-- The facts need no order and the functions no properties where there are no cycles: the equations
have one solution, and all runs without a bound find it, forwards and backwards over plain nodes, and
over path-sensitive ones from any flows if something flows along both classes of edges. -/
theorem acyclic_oneAnswer [BEq F] (hequal : Discerning F) :
    (∀ p : PlainProblem S F, p.forward.graph.violation? = .ok none → p.forward.graph.Acyclic →
      (∀ tick, p.flow tick = p.flow 0) →
        OneAnswer (fun flows => p.Solves PlainNode.preds flows.incoming flows.outgoing)
          p.analyzeForward ∧
        OneAnswer (fun flows => p.Solves PlainNode.succs flows.outgoing flows.incoming)
          p.analyzeBackward) ∧
    ∀ (p : Problem S F) (start : Flows F), p.graph.violation? = .ok none → p.graph.Acyclic → p.Steady →
      (∀ n x k, ((p.transfer n x).get k).isSome) →
        OneAnswer p.Solution fun settings steps => p.solve settings steps start := by
  refine ⟨fun p hv ha hf => ⟨?_, ?_⟩, fun p start hv ha hf hflows => ?_⟩
  · exact PlainProblem.analyzeForward_oneAnswer hequal hv ha hf
  · exact PlainProblem.analyzeBackward_oneAnswer hequal hv ha hf
  · exact Problem.solve_oneAnswer hequal hv ha hf hflows start

/-- What arrives is read as a numeral here too, and is doubled where a branch is taken. -/
def Problem.numerals : Problem Unit Nat where
  graph := .stairs
  merge x y := 10 * x + y
  flow _ n x := ⟨some (x + n.label.toNat), some (2 * x)⟩
  initial := 0
  boundary := 7

/-- By label a label is evaluated again whenever one further up has changed. -/
theorem acyclic_oneAnswer_numerals :
    let forward := fun order => PlainProblem.numerals.analyzeForward { order } 20
    (forward .reversePostOrder).visits = [3, 2, 1, 0] ∧
    (forward .label).visits = [0, 1, 0, 2, 0, 1, 0, 3, 2, 0, 1, 0] ∧
    OneAnswer (fun flows => PlainProblem.numerals.Solves PlainNode.preds flows.incoming flows.outgoing)
      PlainProblem.numerals.analyzeForward ∧
    OneAnswer (fun flows => PlainProblem.numerals.Solves PlainNode.succs flows.outgoing flows.incoming)
      PlainProblem.numerals.analyzeBackward ∧
    OneAnswer Problem.numerals.Solution fun settings steps =>
      Problem.numerals.solve settings steps ⟨∅, ⟨LabelMap.const [2, 5] 4, ∅⟩⟩ := by
  intro forward
  have hacyclic : PlainProblem.numerals.forward.graph.Acyclic :=
    FlowGraph.acyclic_of_height (fun l => 3 - l.toNat) (by decide +kernel)
  obtain ⟨hplain, hbranching⟩ := acyclic_oneAnswer (S := Unit) (F := Nat) fun h => eq_of_beq h
  obtain ⟨hforward, hbackward⟩ := hplain PlainProblem.numerals (by decide +kernel) hacyclic fun _ => rfl
  refine ⟨by decide +kernel, by decide +kernel, hforward, hbackward, ?_⟩
  exact hbranching Problem.numerals _ FlowGraph.stairs_accepted FlowGraph.stairs_acyclic (fun _ => rfl)
    fun _ _ k => by cases k <;> rfl

end FlowAnalysis
