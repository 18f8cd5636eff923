import Mathlib.Data.List.Find
import FlowAnalysis.Fixpoint.Log
import FlowAnalysis.Proofs.Reversal
import FlowAnalysis.Proofs.Seeding
import FlowAnalysis.Proofs.Violations

/-! # How labels and entries are listed

Of the list of labels only the set counts: it is checked as a set, searched as a
set, and queued into a worklist that is determined by the labels in it. Of the
entries the first occurrences count, since a root that comes up again has been
marked by then and grows no tree. If labels are visited in ascending order the
search does not take place, and then only the set of the entries counts, once
the graph has been accepted.
-/
namespace FlowAnalysis
variable {S F : Type}

/-- What is found first in a list is found first without the repeats. -/
theorem find?_eraseDups (p : Label → Bool) (xs : List Label) : xs.eraseDups.find? p = xs.find? p := by
  match xs with
  | [] => rfl
  | x :: xs =>
    rw [List.eraseDups_cons, List.find?_cons, List.find?_cons]
    cases hx : p x with
    | true => rfl
    | false =>
      have hother : ∀ y ∈ xs, decide ((!y == x) = true ∧ p y = true) = p y := by
        intro y _
        by_cases hy : y = x
        · simp [hy, hx]
        · simp [hy]
      exact (find?_eraseDups p _).trans (List.find?_filter.trans (List.find?_congr hother))
termination_by xs.length
decreasing_by exact Nat.lt_succ_of_le (List.length_filter_le _ _)

theorem contains_congr {xs ys : List Label} (h : ∀ l, l ∈ xs ↔ l ∈ ys) (l : Label) :
    xs.contains l = ys.contains l := by
  rw [Bool.eq_iff_iff, List.contains_iff_mem, List.contains_iff_mem, h]

namespace DepthFirst.Forest
variable {succs : Label → List Label} {searched : LabelSet} {root : Label} {f f' : Forest}

theorem grow_of_marked (hs : root ∈ searched) (hm : root ∈ f.marked) :
    f.grow succs searched root = .ok f := by
  rw [grow, if_pos hs, if_pos hm]

/-- After its turn a root is marked, and what was marked before still is. -/
theorem marked_of_grow (he : f.grow succs searched root = .ok f') :
    root ∈ searched ∧ root ∈ f'.marked ∧ ∀ x ∈ f.marked, x ∈ f'.marked := by
  obtain ⟨hs, ⟨hm, rfl⟩ | ⟨_, tree, hd, _⟩⟩ := grow_cases he
  · exact ⟨hs, hm, fun _ => id⟩
  · have htree : Tree succs searched f.marked root f'.marked tree := hd.tree
    refine ⟨hs, ?_, fun x hx => (htree.mem_marked x).mpr (.inl hx)⟩
    exact (htree.mem_marked root).mpr (.inr (List.mem_of_head? htree.head))

/-- A marked root may be left out of those to come. -/
theorem growAll_filter (hs : root ∈ searched) (hm : root ∈ f.marked) (roots : List Label) :
    (roots.filter fun r => !r == root).foldlM (grow succs searched) f =
      roots.foldlM (grow succs searched) f := by
  induction roots generalizing f with
  | nil => rfl
  | cons r roots ih =>
    by_cases hr : r = root
    · subst hr
      rw [List.filter_cons_of_neg (by simp), ih hm, List.foldlM_cons, grow_of_marked hs hm]
      rfl
    · rw [List.filter_cons_of_pos (by simpa using hr), List.foldlM_cons, List.foldlM_cons]
      cases hg : f.grow succs searched r with
      | error a => rfl
      | ok g => exact ih ((marked_of_grow hg).2.2 root hm)

theorem growAll_eraseDups (roots : List Label) (f : Forest) :
    roots.eraseDups.foldlM (grow succs searched) f = roots.foldlM (grow succs searched) f := by
  match roots with
  | [] => rfl
  | r :: roots =>
    rw [List.eraseDups_cons, List.foldlM_cons, List.foldlM_cons]
    cases hg : f.grow succs searched r with
    | error a => rfl
    | ok g =>
      obtain ⟨hs, hm, _⟩ := marked_of_grow hg
      exact (growAll_eraseDups _ g).trans (growAll_filter hs hm roots)
termination_by roots.length
decreasing_by exact Nat.lt_succ_of_le (List.length_filter_le _ _)

end DepthFirst.Forest

namespace Worklist
variable {v w : Worklist} {a b : List Label}

/-- A label has the same place in all worklists of the same ranks that it is in. -/
theorem Ranked.place_of_mem (hv : v.Ranked) (hw : w.Ranked) (hranks : v.ranks = w.ranks) {r : Nat}
    {l : Label} (hr : v.queue[r]? = some l) (hl : l ∈ w) : w.queue[r]? = some l := by
  obtain ⟨s, hs⟩ := hw.mem_iff.mp hl
  have hplace := hv.place hr
  rw [hranks, hw.place hs] at hplace
  exact Option.some.inj hplace ▸ hs

/-- A worklist is determined by its ranks and the labels in it. -/
theorem Ranked.ext (hv : v.Ranked) (hw : w.Ranked) (hranks : v.ranks = w.ranks)
    (hmem : ∀ l, l ∈ v ↔ l ∈ w) : v = w := by
  have hqueue : v.queue = w.queue := Std.ExtTreeMap.ext_getElem? fun {r} => Option.ext fun l =>
    ⟨fun hr => hv.place_of_mem hw hranks hr ((hmem l).mp (hv.mem_iff.mpr ⟨r, hr⟩)),
      fun hr => hw.place_of_mem hv hranks.symm hr ((hmem l).mpr (hw.mem_iff.mpr ⟨r, hr⟩))⟩
  cases v
  cases w
  exact congrArg₂ Worklist.mk hranks hqueue

theorem Ranked.extend_congr (hw : w.Ranked) (h : ∀ l, l ∈ a ↔ l ∈ b) (ha : ∀ l ∈ a, l ∈ w.ranks) :
    w.extend a = w.extend b := by
  obtain ⟨u, hu⟩ := w.extend_total a ha
  obtain ⟨v, hv⟩ := w.extend_total b fun l hl => ha l ((h l).mpr hl)
  obtain ⟨hranked, hranks, hmem⟩ := hw.extend hu
  obtain ⟨hranked', hranks', hmem'⟩ := hw.extend hv
  obtain rfl : u = v := hranked.ext hranked' (hranks.trans hranks'.symm) fun l => by rw [hmem, hmem', h]
  rw [hu, hv]

end Worklist

namespace FlowGraph
variable {g : FlowGraph S} {entries ids : List Label}

/-- The same nodes with their labels and the entries listed in another way. -/
def relist (g : FlowGraph S) (entries ids : List Label) : FlowGraph S := { g with entries, ids }

theorem domain_relist (h : ∀ l, l ∈ ids ↔ l ∈ g.ids) : (g.relist entries ids).domain = g.domain :=
  Std.ExtTreeSet.ext_mem fun l => by rw [mem_domain, mem_domain, ← h]; rfl

theorem violation?_relist (h : ∀ l, l ∈ ids ↔ l ∈ g.ids)
    (he : entries.find? (· ∉ g.domain) = g.entries.find? (· ∉ g.domain)) :
    (g.relist entries ids).violation? = g.violation? := by
  have hunknown : unknownEntry? (g.relist entries ids) = unknownEntry? g := by
    simp only [domain_relist h, unknownEntry?]
    exact congrArg (Option.map Violation.unknownEntry) he
  simp only [violation?, domainMismatch?, labelMismatch?, danglingEdge?, hunknown, domain_relist h]
  rfl

theorem labelOrder_relist (h : ∀ l, l ∈ ids ↔ l ∈ g.ids) :
    (g.relist entries ids).visitOrder .label = g.visitOrder .label := by
  rw [visitOrder, visitOrder, domain_relist h]

/-- The search runs the same way if it comes to the same once the entries have been visited. -/
theorem visitOrder_relist (h : ∀ l, l ∈ ids ↔ l ∈ g.ids)
    (hgrow : ∀ f, entries.foldlM (DepthFirst.Forest.grow g.targets g.domain) f =
      g.entries.foldlM (DepthFirst.Forest.grow g.targets g.domain) f) (order : VisitOrder) :
    (g.relist entries ids).visitOrder order = g.visitOrder order := by
  cases order with
  | label => exact labelOrder_relist h
  | reversePostOrder =>
    have htraverse : ∀ rest, DepthFirst.traverse g.targets g.domain (entries ++ rest) =
        DepthFirst.traverse g.targets g.domain (g.entries ++ rest) := fun rest => by
      simp only [DepthFirst.traverse, List.foldlM_append, hgrow]
    have hnodes : (g.relist entries ids).nodes = g.nodes := rfl
    have hentries : (g.relist entries ids).entries = entries := rfl
    have htargets : (g.relist entries ids).targets = g.targets := rfl
    have hsources : (g.relist entries ids).isSource = g.isSource := rfl
    simp only [visitOrder, reversePostOrder, roots, domain_relist h, hnodes, hentries, htargets,
      hsources, List.append_assoc, htraverse]

end FlowGraph

namespace Problem
variable {p : Problem S F} {entries ids : List Label} {settings : Settings}

/-- The same problem with its labels and the entries listed in another way. -/
def relist (p : Problem S F) (entries ids : List Label) : Problem S F :=
  { p with graph := p.graph.relist entries ids }

theorem complete_relist (he : ∀ l, l ∈ entries ↔ l ∈ p.graph.entries) (flows : Flows F) :
    flows.complete (p.relist entries ids).graph (p.relist entries ids).initial
      (p.relist entries ids).boundary = flows.complete p.graph p.initial p.boundary := by
  simp only [Flows.complete, relist, FlowGraph.relist, contains_congr he]

theorem seeded_relist (h : ∀ l, l ∈ ids ↔ l ∈ p.graph.ids) (he : ∀ l, l ∈ entries ↔ l ∈ p.graph.entries) :
    (p.relist entries ids).seeded = p.seeded := by
  refine Flows.ext_get (Std.ExtTreeMap.ext_getElem? fun {l} => ?_) fun k =>
    Std.ExtTreeMap.ext_getElem? fun {l} => ?_
  · rw [getElem?_seeded_incoming, getElem?_seeded_incoming]
    simp only [relist, FlowGraph.relist, h, he]
  · rw [getElem?_seeded_outgoing, getElem?_seeded_outgoing]
    simp only [relist, FlowGraph.relist, h]

/-- The worklist holds the listed labels, each at its rank, in whatever order they have been queued. -/
theorem start_relist (hv : p.graph.Valid) (h : ∀ l, l ∈ ids ↔ l ∈ p.graph.ids) {order : VisitOrder}
    (ho : (p.graph.relist entries ids).visitOrder order = p.graph.visitOrder order) (flows : Flows F) :
    (p.relist entries ids).start order flows = p.start order flows := by
  obtain ⟨ls, hls, hmem⟩ := hv.visitOrder_total order
  have hextend : (Worklist.ofOrder ls).extend (p.relist entries ids).graph.ids =
      (Worklist.ofOrder ls).extend p.graph.ids :=
    (Worklist.ranked_ofOrder ls).extend_congr h fun l hl =>
      Worklist.mem_ranks_ofOrder.mpr (hmem l ((h l).mp hl))
  have hgraph : Worklist.ofGraph order (p.relist entries ids).graph = .ok (Worklist.ofOrder ls) := by
    rw [relist, Worklist.ofGraph, ho, hls]
    rfl
  have hgraph' : Worklist.ofGraph order p.graph = .ok (Worklist.ofOrder ls) := by
    rw [Worklist.ofGraph, hls]
    rfl
  simp only [start, hgraph, hgraph', bind, Except.bind, hextend]

variable [BEq F]

theorem evaluate_relist (he : ∀ l, l ∈ entries ↔ l ∈ p.graph.entries) :
    (p.relist entries ids).evaluate = p.evaluate := by
  funext tick flows l
  simp only [evaluate, gather, relist, FlowGraph.relist, contains_congr he]
  rfl

/-- The problems are solved by the same evaluations, with the same facts in the end or the same failure,
from any flows and from seeded ones. -/
structure SolvedAlike (p q : Problem S F) (settings : Settings) : Prop where
  solve : ∀ steps flows, q.solve settings steps flows = p.solve settings steps flows
  analyze : ∀ steps, q.analyze settings steps = p.analyze settings steps

/-- Two listings make no difference if they come to the same under the check and in the visiting
order. -/
theorem solvedAlike_relist (h : ∀ l, l ∈ ids ↔ l ∈ p.graph.ids)
    (he : ∀ l, l ∈ entries ↔ l ∈ p.graph.entries)
    (hviolation : (p.graph.relist entries ids).violation? = p.graph.violation?)
    (ho : (p.graph.relist entries ids).visitOrder settings.order = p.graph.visitOrder settings.order) :
    p.SolvedAlike (p.relist entries ids) settings := by
  have hsolve : ∀ steps flows,
      (p.relist entries ids).solve settings steps flows = p.solve settings steps flows := by
    intro steps flows
    have hchecked : (p.relist entries ids).graph.violation? = p.graph.violation? := hviolation
    obtain ⟨c, hc, _⟩ := p.graph.exists_violation?
    cases c with
    | some v => simp only [solve, hchecked, hc]
    | none =>
      have hv := FlowGraph.violation?_eq_ok_none_iff.mp hc
      obtain ⟨s, hs, _, hrun⟩ := exists_start_of_accepted hc settings.order flows
      have hstart := (start_relist hv h ho _).trans hs
      have hrelisted : (p.relist entries ids).solve settings steps flows =
          (p.relist entries ids).run (settings.bound p.graph.nodes.size) steps s := by
        simp only [solve, hchecked, hc, complete_relist he, hstart]
        rfl
      rw [hrelisted, hrun settings rfl]
      exact run_congr (evaluate_relist he) _ _ s
  refine ⟨hsolve, fun steps => ?_⟩
  rw [analyze, analyze, seeded_relist h he, hsolve]

/-- However often and in whatever order the labels are listed, a run is the same and its log too.
Repeated entries may be dropped as long as the first occurrences stay where they are; of that the log
alone can tell, which counts the entries. And where labels are visited in ascending order, on an
accepted graph, the entries may be listed in any way as well. -/
theorem solve_relisted (p : Problem S F) (settings : Settings) {ids : List Label}
    (h : ∀ l, l ∈ ids ↔ l ∈ p.graph.ids) :
    (p.SolvedAlike (p.relist p.graph.entries ids) settings ∧ ∀ steps flows,
      ((p.relist p.graph.entries ids).solve settings steps flows).log
        (p.relist p.graph.entries ids).graph = (p.solve settings steps flows).log p.graph) ∧
    p.SolvedAlike (p.relist p.graph.entries.eraseDups ids) settings ∧
    (settings.order = .label → p.graph.violation? = .ok none → ∀ entries,
      (∀ l, l ∈ entries ↔ l ∈ p.graph.entries) → p.SolvedAlike (p.relist entries ids) settings) := by
  have hentries : ∀ l, l ∈ p.graph.entries.eraseDups ↔ l ∈ p.graph.entries := fun l => List.mem_eraseDups
  have hsame : p.SolvedAlike (p.relist p.graph.entries ids) settings :=
    solvedAlike_relist h (fun _ => Iff.rfl) (FlowGraph.violation?_relist h rfl)
      (FlowGraph.visitOrder_relist h (fun _ => rfl) settings.order)
  refine ⟨⟨hsame, fun steps flows => ?_⟩, ?_, fun horder hv entries he => ?_⟩
  · rw [hsame.solve]
    rfl
  · exact solvedAlike_relist h hentries
      (FlowGraph.violation?_relist h (find?_eraseDups _ _))
      (FlowGraph.visitOrder_relist h (DepthFirst.Forest.growAll_eraseDups _) settings.order)
  · have hvalid := FlowGraph.violation?_eq_ok_none_iff.mp hv
    have hinside : ∀ l ∈ p.graph.entries, l ∈ p.graph.domain :=
      fun l hl => FlowGraph.mem_domain.mpr (hvalid.entry_mem hl)
    have hfind : entries.find? (· ∉ p.graph.domain) = p.graph.entries.find? (· ∉ p.graph.domain) := by
      rw [List.find?_eq_none.mpr, List.find?_eq_none.mpr]
      · simpa using hinside
      · simpa [he] using hinside
    exact solvedAlike_relist h he (FlowGraph.violation?_relist h hfind)
      (horder ▸ FlowGraph.labelOrder_relist h)

/-- The labels come in another order, one of them twice, and the entries have a repeat. -/
theorem solve_relisted_tracing :
    let repeating := tracing.relist [0, 2, 0] [0, 1, 2]
    let again := repeating.relist [2, 0] [2, 1, 0, 2]
    let settings : Settings := { order := .label }
    repeating.graph.violation? = .ok none ∧ repeating.SolvedAlike again settings ∧
    (repeating.analyze settings 20).visits = [0, 1, 1, 2] ∧
    repeating.SolvedAlike (repeating.relist [0, 2, 0].eraseDups [2, 1, 0, 2]) {} ∧
    ((repeating.relist [0, 2, 0] [2, 1, 0, 2]).analyze {} 20).visits = [0, 1, 1, 2] := by
  intro repeating again settings
  have hids : ∀ l, l ∈ [2, 1, 0, 2] ↔ l ∈ repeating.graph.ids := fun l => by
    change l ∈ [2, 1, 0, 2] ↔ l ∈ [0, 1, 2]
    simp only [List.mem_cons, List.not_mem_nil]
    tauto
  have hentries : ∀ l, l ∈ [2, 0] ↔ l ∈ repeating.graph.entries := fun l => by
    change l ∈ [2, 0] ↔ l ∈ [0, 2, 0]
    simp only [List.mem_cons, List.not_mem_nil]
    tauto
  have haccepted : repeating.graph.violation? = .ok none := rfl
  obtain ⟨_, _, hlabel⟩ := solve_relisted repeating settings hids
  obtain ⟨_, hdropped, _⟩ := solve_relisted repeating {} hids
  exact ⟨haccepted, hlabel rfl haccepted _ hentries, by decide +kernel, hdropped, by decide +kernel⟩

end Problem
end FlowAnalysis
