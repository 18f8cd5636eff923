import FlowAnalysis.Proofs.Acceptance
import FlowAnalysis.Proofs.Constructions
import FlowAnalysis.Proofs.FactMaps
import FlowAnalysis.Proofs.PlainRuns

/-! # Liveness

A node generates some elements, kills others, and lets the rest pass against the
direction of its edges. An element is live at a label if some walk from there
comes to a node that generates it and meets none before that kills it. Going
backwards over sets that are joined, no slot ever holds anything else. When the
run has settled, what is live has been carried back along its walk.
-/
namespace FlowAnalysis
variable {S T : Type}

namespace PlainGraph
variable {g : PlainGraph S} {gen kill : Label → FiniteSet T} {a b c : Label} {v : T}

/-- A walk leads from the label to a node that generates the element, and no node before kills it. -/
def Live (g : PlainGraph S) (gen kill : Label → FiniteSet T) (c : Label) (v : T) : Prop :=
  ∃ ls d, g.Walk c (ls ++ [d]) d ∧ v ∈ gen d ∧ ∀ l ∈ ls, v ∉ kill l

theorem Live.here (hc : c ∈ g.nodes) (hv : v ∈ gen c) : g.Live gen kill c v :=
  ⟨[], c, .here hc, hv, fun _ hl => absurd hl List.not_mem_nil⟩

theorem Live.back (h : g.Live gen kill b v) (ha : a ∈ g.nodes) (he : g.HasEdge a b) (hv : v ∉ kill a) :
    g.Live gen kill a v := by
  obtain ⟨ls, d, hw, hgen, hkill⟩ := h
  exact ⟨a :: ls, d, hw.cons ha he, hgen, List.forall_mem_cons.mpr ⟨hv, hkill⟩⟩

end PlainGraph

variable [DecidableEq T]

/-- What is generated at a label, and what comes there and is not killed. -/
def passed (gen kill : Label → FiniteSet T) (l : Label) (x : FiniteSet T) : FiniteSet T :=
  (x.filter (· ∉ kill l)).union (gen l)

/-- Every node lets a set pass, and what comes from several nodes is joined. -/
def genKill (g : PlainGraph S) (gen kill : Label → FiniteSet T) : PlainProblem S (FiniteSet T) where
  entries := []
  ids := g.labels
  nodes := g.nodes
  merge := join
  flow _ n x := passed gen kill n.label x
  initial := .empty
  boundary := .empty

/-- All that the nodes of the graph generate. -/
def generated (g : PlainGraph S) (gen : Label → FiniteSet T) : FiniteSet T :=
  mergeAll join .empty (g.labels.map gen)

namespace FiniteSet
variable {x : FiniteSet T} {xs : List (FiniteSet T)} {v : T}

theorem mem_foldl_union : v ∈ xs.foldl join x ↔ v ∈ x ∨ ∃ y ∈ xs, v ∈ y := by
  induction xs generalizing x with
  | nil => simp
  | cons y ys ih =>
    have hmerged : v ∈ (join x y : FiniteSet T) ↔ v ∈ x ∨ v ∈ y := mem_union
    rw [List.foldl_cons, ih, hmerged, List.exists_mem_cons_iff, or_assoc]

theorem mem_mergeAll_union : v ∈ mergeAll join empty xs ↔ ∃ x ∈ xs, v ∈ x := by
  cases xs with
  | nil => simp [mergeAll]
  | cons x xs => rw [mergeAll, mem_foldl_union, List.exists_mem_cons_iff]

end FiniteSet

section Flow
variable {g : PlainGraph S} {gen kill : Label → FiniteSet T} {l : Label} {x y : FiniteSet T} {v : T}

theorem mem_passed : v ∈ passed gen kill l x ↔ v ∈ x ∧ v ∉ kill l ∨ v ∈ gen l := by
  rw [passed, FiniteSet.mem_union, FiniteSet.mem_filter, decide_eq_true_iff]

theorem passed_mono (h : x ⊆ y) : passed gen kill l x ⊆ passed gen kill l y := fun v hv =>
  mem_passed.mpr ((mem_passed.mp hv).imp_left fun hx => ⟨h v hx.1, hx.2⟩)

theorem gen_subset_generated (hl : l ∈ g.nodes) : gen l ⊆ generated g gen := fun _ hv =>
  FiniteSet.mem_mergeAll_union.mpr ⟨_, List.mem_map_of_mem (PlainGraph.mem_labels.mpr hl), hv⟩

end Flow

namespace PlainGraph.Reachable
variable {g : PlainGraph S} {c : Label} {x : FiniteSet T} {v : T} {settings : Settings} {steps : Nat}
variable (hg : g.Reachable) (gen kill : Label → FiniteSet T)
include hg

theorem genKill_accepted : (genKill g gen kill).backward.graph.violation? = .ok none := by
  have hover : (genKill g gen kill).Over g := ⟨rfl, rfl, fun _ hl => absurd hl List.not_mem_nil⟩
  exact FlowGraph.violation?_eq_ok_none_iff.mpr (hover.built_backward hg).valid

/-- No set holds what nothing generates. -/
theorem genKill_within : (genKill g gen kill).turned.forward.Within fun x => x ⊆ generated g gen := by
  have hempty : (.empty : FiniteSet T) ⊆ generated g gen := fun v hv => absurd hv (FiniteSet.not_mem_empty v)
  refine PlainProblem.forward_within hempty hempty
    (fun hx hy v hv => (FiniteSet.mem_union.mp hv).elim (hx v) (hy v)) ?_
  intro l n hn _ x hx v hv
  obtain ⟨m, hm, rfl⟩ := LabelMap.getElem?_map_eq_some_iff.mp hn
  have hlabel : m.label = l := hg.label hm
  rcases mem_passed.mp hv with ⟨hv, _⟩ | hv
  · exact hx v hv
  · exact gen_subset_generated (hlabel ▸ LabelMap.mem_of_getElem? hm) v hv

theorem genKill_isMonotone : (hg.genKill_within gen kill).problem.IsMonotone := by
  have hlawful := (FiniteSet.lawfulMeet ⟨generated g gen⟩).toLawfulJoin
  refine PlainProblem.forward_isMonotone _ (fun _ => rfl) hlawful.semilattice
    (fun _ hx => hlawful.bottom_join hx) ?_
  intro _ _ _ x y _ _ hxy
  have hsub : x ⊆ y := FiniteSet.leq_iff_subset.mp (FiniteSet.leq_iff_union.mpr hxy)
  exact FiniteSet.leq_iff_union.mp (FiniteSet.leq_iff_subset.mpr (passed_mono hsub))

/-- The sets can grow as often as there are elements to be generated. -/
theorem genKill_height : HeightAtMost (hg.genKill_within gen kill).problem.merge (generated g gen).size := by
  refine heightAtMost_of_rank (fun x => (generated g gen).size - x.1.size) ?_ fun _ => Nat.sub_le _ _
  rintro x y ⟨hxy, hne⟩
  have hsub : x.1 ⊆ y.1 :=
    FiniteSet.leq_iff_subset.mp (FiniteSet.leq_iff_union.mpr (congrArg Subtype.val hxy))
  have hlt := FiniteSet.size_lt_of_subset hsub fun heq => hne (Subtype.ext heq)
  have hle := FiniteSet.size_le_of_subset y.2
  omega

theorem genKill_settles (order : VisitOrder) : ∃ most, ∀ steps, most < steps →
    ((genKill g gen kill).analyzeBackward { order } steps).ending = .settled := by
  have hv := hg.genKill_accepted gen kill
  rw [PlainProblem.backward_eq_turned] at hv
  simp only [PlainProblem.analyzeBackward_eq_turned]
  exact ⟨_, fun _ hsteps => (hg.genKill_within gen kill).settles hv (hg.genKill_isMonotone gen kill)
    (hg.genKill_height gen kill) rfl hsteps⟩

variable {gen kill}

/-- However a run ends, the slots hold live elements only. -/
theorem live_of_mem_slot
    (hx : ((genKill g gen kill).analyzeBackward settings steps).flows.incoming[c]? = some x) (hv : v ∈ x) :
    g.Live gen kill c v := by
  refine PlainProblem.backward_slots (hg.genKill_accepted gen kill)
    (fun c x => ∀ v ∈ x, g.Live gen kill c v) ?_ ?_ hx v hv
  · exact fun l _ v hv => absurd hv (FiniteSet.not_mem_empty v)
  · intro _ l n xs hn hxs v hv
    have hl := LabelMap.mem_of_getElem? hn
    have hlabel : n.label = l := hg.label hn
    subst hlabel
    rcases mem_passed.mp hv with ⟨hv, hkill⟩ | hgen
    · obtain ⟨x, hx, hv⟩ := FiniteSet.mem_mergeAll_union.mp hv
      rcases hxs x hx with ⟨b, hb, hlive⟩ | ⟨hentry, _⟩
      · exact (hlive v hv).back hl ⟨n, hn, hb⟩ hkill
      · exact absurd hentry List.not_mem_nil
    · exact .here hl hgen

variable (hend : ((genKill g gen kill).analyzeBackward settings steps).ending = .settled)
include hend

/-- In the end the set behind a node holds what stands in the slots of its successors, and the slot of
the node holds what it makes of that. -/
theorem genKill_settled (hc : c ∈ g.nodes) : ∃ x y,
    ((genKill g gen kill).analyzeBackward settings steps).flows.incoming[c]? = some x ∧
    ((genKill g gen kill).analyzeBackward settings steps).flows.outgoing[c]? = some y ∧
    (∀ v, v ∈ x ↔ v ∈ y ∧ v ∉ kill c ∨ v ∈ gen c) ∧
    ∀ v, v ∈ y ↔ ∃ s, g.HasEdge c s ∧
      ∃ z, ((genKill g gen kill).analyzeBackward settings steps).flows.incoming[s]? = some z ∧ v ∈ z := by
  obtain ⟨n, hn⟩ := LabelMap.exists_of_mem hc
  obtain ⟨xs, hxs, hout, hin⟩ :=
    PlainProblem.backward_settled (hg.genKill_accepted gen kill) (fun _ => rfl) hend hn
  have hlabel : n.label = c := hg.label hn
  refine ⟨_, _, hin, hout, fun v => hlabel ▸ mem_passed, fun v => ?_⟩
  refine FiniteSet.mem_mergeAll_union.trans ⟨?_, ?_⟩
  · rintro ⟨z, hz, hv⟩
    rcases (hxs z).mp hz with ⟨s, hs, hslot⟩ | ⟨hentry, _⟩
    · exact ⟨s, ⟨n, hn, hs⟩, z, hslot, hv⟩
    · exact absurd hentry List.not_mem_nil
  · rintro ⟨s, ⟨m, hm, hs⟩, z, hslot, hv⟩
    obtain rfl := Option.some.inj (hn.symm.trans hm)
    exact ⟨z, (hxs z).mpr (.inl ⟨s, hs, hslot⟩), hv⟩

/-- What is live has been carried back along its walk when the run has settled. -/
theorem mem_slot_of_live (hc : c ∈ g.nodes) (hlive : g.Live gen kill c v)
    (hx : ((genKill g gen kill).analyzeBackward settings steps).flows.incoming[c]? = some x) : v ∈ x := by
  obtain ⟨ls, d, hw, hgen, hkill⟩ := hlive
  -- By induction on what the walk meets before the node that generates: its first edge leads to a
  -- successor, where the element has arrived by then.
  induction ls generalizing c x with
  | nil =>
    have hcd : c = d := by
      rcases hw.first hg with ⟨_, he⟩ | ⟨_, _, hls, _⟩
      · exact he
      · exact (List.cons.inj hls).1.symm
    obtain ⟨_, _, hin, _, hmem, _⟩ := hg.genKill_settled hend hc
    obtain rfl := Option.some.inj (hx.symm.trans hin)
    exact (hmem v).mpr (.inr (hcd ▸ hgen))
  | cons l ls ih =>
    obtain ⟨hkilled, hrest⟩ := List.forall_mem_cons.mp hkill
    rcases hw.first hg with ⟨hls, _⟩ | ⟨s, rest, hls, he, hw⟩
    · simp at hls
    · obtain ⟨rfl, rfl⟩ := List.cons.inj hls
      have hs := (hg.hasEdge_mem he).2
      obtain ⟨_, _, hin, _, hmem, hbehind⟩ := hg.genKill_settled hend hc
      obtain ⟨z, _, hz, _⟩ := hg.genKill_settled hend hs
      obtain rfl := Option.some.inj (hx.symm.trans hin)
      have hv : v ∈ z := ih hs hz hw hrest
      exact (hmem v).mpr (.inl ⟨(hbehind v).mpr ⟨s, he, z, hz, hv⟩, hkilled⟩)

end PlainGraph.Reachable

/-- Liveness is computed exactly: without a bound on the evaluations the run settles, and then the
elements before a label are those that are live there, and the elements behind it are those before
its successors. -/
theorem liveness_exact {g : PlainGraph S} (hg : g.Reachable) (gen kill : Label → FiniteSet T)
    (order : VisitOrder) :
    let run := (genKill g gen kill).withoutBoundary.analyzeBackward { order }
    (∃ most, ∀ steps, most < steps → (run steps).ending = .settled) ∧
    ∀ steps, (run steps).ending = .settled → ∀ c ∈ g.nodes, ∃ x y,
      (run steps).flows.incoming[c]? = some x ∧ (run steps).flows.outgoing[c]? = some y ∧
      (∀ v, v ∈ x ↔ g.Live gen kill c v) ∧
      ∀ v, v ∈ y ↔ ∃ s, g.HasEdge c s ∧ ∃ z, (run steps).flows.incoming[s]? = some z ∧ v ∈ z := by
  intro run
  refine ⟨hg.genKill_settles gen kill order, fun steps hend c hc => ?_⟩
  obtain ⟨x, y, hin, hout, _, hbehind⟩ := hg.genKill_settled hend hc
  exact ⟨x, y, hin, hout, fun v => ⟨hg.live_of_mem_slot hin, fun hv => hg.mem_slot_of_live hend hc hv hin⟩,
    hbehind⟩

/-- The loop kills what the way out generates, and the shortcut goes round it. -/
theorem liveness_exact_bypass :
    let gen := fun l : Label => FiniteSet.ofList (if l = 2 then [7, 8] else [])
    let kill := fun l : Label => FiniteSet.ofList (if l = 1 then [7] else if l = 0 then [8] else [])
    PlainProblem.bypass.Live gen kill 0 7 ∧ ¬PlainProblem.bypass.Live gen kill 1 7 ∧
    ¬PlainProblem.bypass.Live gen kill 0 8 := by
  intro gen kill
  let run := (genKill PlainProblem.bypass gen kill).withoutBoundary.analyzeBackward {} 20
  have hend : run.ending = .settled := by decide +kernel
  obtain ⟨_, hexact⟩ := liveness_exact PlainProblem.bypass_reachable gen kill .reversePostOrder
  obtain ⟨x, _, hx, _, hentry, _⟩ := hexact 20 hend 0 (by decide)
  obtain ⟨y, _, hy, _, hloop, _⟩ := hexact 20 hend 1 (by decide)
  have hbefore : (run.flows.incoming[(0 : Label)]?.map fun x => (decide (7 ∈ x), decide (8 ∈ x))) =
      some (true, false) := by decide +kernel
  have hkilled : (run.flows.incoming[(1 : Label)]?.map fun y => decide (7 ∈ y)) = some false := by
    decide +kernel
  have hx7 : 7 ∈ x ∧ 8 ∉ x := by simpa [run, hx] using hbefore
  have hy7 : 7 ∉ y := by simpa [run, hy] using hkilled
  exact ⟨(hentry 7).mp hx7.1, fun h => hy7 ((hloop 7).mpr h), fun h => hx7.2 ((hentry 8).mpr h)⟩

end FlowAnalysis
