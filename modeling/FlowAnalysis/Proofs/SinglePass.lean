import Mathlib.Order.Bounds.Defs
import FlowAnalysis.Proofs.Acyclic
import FlowAnalysis.Proofs.Sweep

/-! # Acyclic graphs are solved in one pass

If the first root leads to all labels, the search grows one tree, and an edge
that leads back in the order of a tree belongs to a cycle. So the order of an
acyclic graph is a topological one: the successors of a label come after it.
When it is evaluated they are queued still, and no label is ever queued again.
-/
namespace FlowAnalysis
variable {S F R : Type}

namespace DepthFirst
variable {succs : Label → List Label} {earlier roots order : List Label} {root : Label}

theorem Layout.eq_nil (h : Layout succs earlier roots order)
    (hled : ∀ x ∈ order, LedTo succs earlier x) : order = [] :=
  List.eq_nil_iff_forall_not_mem.mpr fun x hx => (h.mem_iff.mp hx).2 (hled x hx)

/-- If the first root leads to all labels, its block is the whole order. -/
theorem Layout.block (h : Layout succs [] (root :: roots) order)
    (hleads : ∀ x ∈ order, Leads succs root x) : Block succs [] root order := by
  cases h with
  | placed hroot _ => exact absurd hroot not_ledTo_nil
  | grown hblock hrest =>
    have hnil := hrest.eq_nil fun x hx =>
      ⟨root, List.mem_singleton_self root, hleads x (List.mem_append_right _ hx)⟩
    rwa [hnil, List.append_nil]

end DepthFirst

theorem Ascending.head?_eq {P : Label → Prop} {ls : List Label} {r : Label} (h : Ascending P ls)
    (hr : IsLeast {l | P l} r) : ls.head? = some r := by
  have hmem : r ∈ ls := (h.2 r).mpr hr.1
  cases ls with
  | nil => cases hmem
  | cons x xs =>
    have hle : r ≤ x := hr.2 ((h.2 x).mp List.mem_cons_self)
    rcases List.mem_cons.mp hmem with rfl | htail
    · rfl
    · have hlt : x < r := List.rel_of_pairwise_cons h.1 htail
      exact absurd hle (UInt64.not_le.mpr hlt)

namespace FlowGraph
variable {g : FlowGraph S} {order before after : List Label} {l x : Label} {k : EdgeClass}

/-- Where the search begins: at the first entry, or at the smallest label without predecessors if
there is no entry. -/
inductive FirstRoot (g : FlowGraph S) : Label → Prop
  | entry {r : Label} : g.entries.head? = some r → FirstRoot g r
  | source {r : Label} : g.entries = [] → IsLeast {l | l ∈ g.ids ∧ g.isSource l} r → FirstRoot g r

theorem FirstRoot.roots_eq {r : Label} (h : g.FirstRoot r) : ∃ rest, g.roots = r :: rest := by
  have hhead : g.roots.head? = some r := by
    cases h with
    | entry hentry => simp [roots, hentry]
    | source hnone hleast =>
      have hsources : Ascending (fun l => l ∈ g.ids ∧ g.isSource l) (g.domain.toList.filter g.isSource) :=
        ⟨ascending_domain.1.filter g.isSource, fun l => by rw [List.mem_filter, ascending_domain.2]⟩
      simp [roots, hnone, hsources.head?_eq hleast]
  exact List.head?_eq_some_iff.mp hhead

theorem FirstRoot.unique {r s : Label} (hr : g.FirstRoot r) (hs : g.FirstRoot s) : r = s := by
  obtain ⟨_, h⟩ := hr.roots_eq
  obtain ⟨_, h'⟩ := hs.roots_eq
  exact (List.cons.inj (h.symm.trans h')).1

/-- The search finds everything from where it begins. -/
def Rooted (g : FlowGraph S) : Prop :=
  ∀ l ∈ g.ids, ∃ r, g.FirstRoot r ∧ DepthFirst.Leads g.targets r l

/-- Wherever an order is cut, the predecessors of the label that comes next are in the part before. -/
def Topological (g : FlowGraph S) (order : List Label) : Prop :=
  ∀ (before : List Label) (l : Label) (after : List Label), order = before ++ l :: after →
    ∀ {k q}, g.HasEdge k q l → q ∈ before

theorem Rooted.block (h : g.Rooted) (he : g.reversePostOrder = .ok order) (hne : order ≠ []) :
    ∃ r, DepthFirst.Block g.targets [] r order := by
  obtain ⟨l, hl⟩ := List.exists_mem_of_ne_nil order hne
  obtain ⟨r, hr, _⟩ := h l ((mem_reversePostOrder he).mp hl)
  obtain ⟨rest, hroots⟩ := hr.roots_eq
  have hlayout := layout_of_reversePostOrder he
  rw [hroots] at hlayout
  refine ⟨r, hlayout.block fun x hx => ?_⟩
  obtain ⟨s, hs, hleads⟩ := h x ((mem_reversePostOrder he).mp hx)
  exact hr.unique hs ▸ hleads

theorem Rooted.topological (h : g.Rooted) (hv : g.Valid) (ha : g.Acyclic)
    (he : g.reversePostOrder = .ok order) : g.Topological order := by
  intro before l after hcut k q hedge
  obtain ⟨r, hblock⟩ := h.block he (by simp [hcut])
  obtain ⟨n, hn, hk⟩ := hedge
  have htarget : l ∈ g.targets q := mem_targets.mpr ⟨n, hn, k, hk⟩
  have hq : q ∈ order :=
    (mem_reversePostOrder he).mpr ((hv.mem_ids q).mpr (LabelMap.mem_of_getElem? hn))
  obtain ⟨i, hi⟩ := List.mem_iff_getElem?.mp hq
  have hl : order[before.length]? = some l := by simp [hcut]
  by_cases hlt : i < before.length
  · rw [hcut, List.getElem?_append_left hlt] at hi
    exact List.mem_of_getElem? hi
  -- An edge that leads back in the block would close a cycle.
  · have hback := hblock.backward hi hl htarget (Nat.le_of_not_lt hlt)
    exact absurd (Relation.TransGen.head' htarget hback) (ha q)

theorem Topological.mem_after (h : g.Topological order) (hnodup : order.Nodup)
    (hcut : order = before ++ l :: after) (hedge : g.HasEdge k l x) (hx : x ∈ order) : x ∈ after := by
  have hl : l ∉ before := by
    rw [hcut] at hnodup
    exact fun hl => (List.nodup_append'.mp hnodup).2.2 hl List.mem_cons_self
  rw [hcut] at hx
  rcases List.mem_append.mp hx with hx | hx
  -- If the successor came before, the label would come even before that.
  · obtain ⟨first, second, rfl⟩ := List.append_of_mem hx
    have hmem := h first x (second ++ l :: after) (by simp [hcut]) hedge
    exact absurd (List.mem_append_left _ hmem) hl
  · rcases List.mem_cons.mp hx with rfl | hx
    · exact absurd (h before _ after hcut hedge) hl
    · exact hx

theorem stairs_rooted : stairs.Rooted := by
  intro l hl
  refine ⟨3, .entry rfl, ?_⟩
  have hone : DepthFirst.Leads stairs.targets 3 1 := .single (by decide +kernel)
  have htwo : DepthFirst.Leads stairs.targets 3 2 := .single (by decide +kernel)
  have hids : l = 0 ∨ l = 1 ∨ l = 2 ∨ l = 3 := by simpa [stairs, ofNodes] using hl
  rcases hids with rfl | rfl | rfl | rfl
  · exact htwo.tail (by decide +kernel)
  · exact hone
  · exact htwo
  · exact .refl

end FlowGraph

/-- The run has settled after it has evaluated each label once, in reverse post-order and after all its
predecessors. -/
structure Report.SinglePass (r : Report F R) (g : FlowGraph S) : Prop where
  sweeps : r.Sweeps g .reversePostOrder
  topological : g.Topological r.visits

namespace Problem
variable [BEq F] {p : Problem S F}

/-- In a topological order an evaluation awakens none but labels that come later. -/
theorem Evaluates.awakened_later {tick : Nat} {flows : Flows F} {n : Node S} {e : Evaluation F}
    {order before after : List Label} (he : p.Evaluates tick flows n e) (hv : p.graph.Valid)
    (h : p.graph.Topological order) (hvisit : p.graph.visitOrder .reversePostOrder = .ok order)
    (hcut : order = before ++ e.label :: after) : ∀ x ∈ e.awakened, x ∈ after := by
  intro x hx
  obtain ⟨hnodup, hmem⟩ := FlowGraph.nodup_visitOrder hvisit
  obtain ⟨k, _, hk⟩ := (he.awakened x).mp hx
  have hedge : p.graph.HasEdge k e.label x := ⟨n, he.node, hk⟩
  have hids : x ∈ p.graph.ids := (hv.mem_ids x).mpr (hv.succ_mem he.node hk)
  exact h.mem_after hnodup hcut hedge ((hmem x).mpr hids)

/-- An acyclic graph that is found from where the search begins has a topological reverse post-order,
and a run in this order passes over the labels once, under any bound and from any flows. Both
functions may change with each evaluation; the labels are no more than a word can count. -/
theorem solve_single_pass (hv : p.graph.violation? = .ok none) (ha : p.graph.Acyclic)
    (hroot : p.graph.Rooted) :
    (∃ order, p.graph.reversePostOrder = .ok order ∧ p.graph.Topological order) ∧
    ∀ (settings : Settings) (steps : Nat) (start : Flows F), settings.order = .reversePostOrder →
      (settings.nodeLimit ≠ 0 → p.graph.ids.toFinset.card < UInt64.size) →
      p.graph.ids.toFinset.card < steps →
        (p.solve settings steps start).SinglePass p.graph ∧
          ∀ merges, (p.solveVarying merges settings steps start).SinglePass p.graph := by
  have hvalid := FlowGraph.violation?_eq_ok_none_iff.mp hv
  obtain ⟨order, horder⟩ := hvalid.searchable.exists_reversePostOrder
  have htopological := hroot.topological hvalid ha horder
  have hvisit : p.graph.visitOrder .reversePostOrder = .ok order := horder
  refine ⟨⟨order, horder, htopological⟩, fun settings steps start hrpo hfits hsteps => ?_⟩
  have hvarying : ∀ merges, (p.solveVarying merges settings steps start).SinglePass p.graph := by
    intro merges
    have hlater : ∀ {tick flows n e}, (p.merging (merges tick)).Evaluates tick flows n e →
        ∀ {before after}, p.graph.visitOrder settings.order = .ok (before ++ e.label :: after) →
          ∀ x ∈ e.awakened, x ∈ after := by
      intro tick flows n e he before after hcut
      rw [hrpo] at hcut
      exact he.awakened_later hvalid htopological hvisit (Except.ok.inj (hvisit.symm.trans hcut))
    have hsweeps : (p.solveVarying merges settings steps start).Sweeps p.graph settings.order :=
      (solveVarying_sweeps hv hfits hsteps (fun _ => True) trivial (fun _ _ => trivial)
        fun he _ => hlater he).1
    rw [hrpo] at hsweeps
    exact ⟨hsweeps, Except.ok.inj (horder.symm.trans hsweeps.visits) ▸ htopological⟩
  exact ⟨solveVarying_const settings steps start ▸ hvarying fun _ => p.merge, hvarying⟩

/-- Facts that tell when they were made, every other time along the taken edges. -/
def clock : Problem Unit Nat where
  graph := .stairs
  merge := max
  flow tick _ x := ⟨some (tick + x), if tick % 2 = 0 then some tick else none⟩
  initial := 0
  boundary := 10

theorem solve_single_pass_clock :
    let start : Flows Nat := ⟨∅, ⟨LabelMap.const [0, 7] 3, ∅⟩⟩
    let run := clock.solve { nodeLimit := 1 } 5 start
    run.SinglePass .stairs ∧ run.visits = [3, 2, 1, 0] := by
  intro start run
  have hcard : FlowGraph.stairs.ids.toFinset.card = 4 := by decide +kernel
  obtain ⟨_, hruns⟩ := solve_single_pass (p := clock) FlowGraph.stairs_accepted FlowGraph.stairs_acyclic
    FlowGraph.stairs_rooted
  obtain ⟨hrun, _⟩ := hruns { nodeLimit := 1 } 5 start rfl (fun _ => hcard ▸ by decide)
    (hcard ▸ by decide)
  exact ⟨hrun, by decide +kernel⟩

end Problem
end FlowAnalysis
