import Mathlib.Data.Finset.Card
import Mathlib.Data.Finset.Range
import FlowAnalysis.Proofs.Forest

/-! # Depth-first search as a recursion

To visit a label is to mark it, to visit its successors from the last listed one
to the first, and then to write it down; a marked label is not visited. Labels
are words, so there are finitely many to mark and the recursion ends. The stack
of the search is what is left of the calls under way: to work off a frame is to
visit the successors that are pending there and to write its label down.
-/
namespace FlowAnalysis
namespace DepthFirst

/-- The labels visited so far, and those of the present tree in the order in which their visits
came to an end. -/
structure Progress where
  marked : LabelSet := ∅
  postOrder : List Label := []

theorem size_le_labels (marked : LabelSet) : marked.size ≤ UInt64.size := by
  have hdistinct : (marked.toList.map UInt64.toNat).Nodup := by
    refine List.Nodup.map (fun _ _ => UInt64.toNat_inj.mp) ?_
    exact Std.ExtTreeSet.distinct_toList.imp Std.ReflCmp.ne_of_cmp_ne_eq
  have hsub : (marked.toList.map UInt64.toNat).toFinset ⊆ Finset.range UInt64.size := by
    intro x hx
    obtain ⟨l, _, rfl⟩ := List.mem_map.mp (List.mem_toFinset.mp hx)
    exact Finset.mem_range.mpr l.toNat_lt
  calc marked.size
      = (marked.toList.map UInt64.toNat).length := by
        rw [List.length_map, Std.ExtTreeSet.length_toList]
    _ = (marked.toList.map UInt64.toNat).toFinset.card := (List.toFinset_card_of_nodup hdistinct).symm
    _ ≤ (Finset.range UInt64.size).card := Finset.card_le_card hsub
    _ = UInt64.size := Finset.card_range _

/-- How many labels are not marked. -/
def Progress.room (p : Progress) : Nat := UInt64.size - p.marked.size

def Progress.mark (p : Progress) (l : Label) : Progress := { p with marked := p.marked.insert l }

theorem Progress.room_mark {p : Progress} {l : Label} (h : l ∉ p.marked) : (p.mark l).room < p.room := by
  have hsize : (p.marked.insert l).size = p.marked.size + 1 := by
    rw [Std.ExtTreeSet.size_insert, if_neg (mt Std.ExtTreeSet.contains_iff_mem.mp h)]
  have hle := size_le_labels (p.marked.insert l)
  simp only [room, mark]
  omega

variable (succs : Label → List Label)

mutual

/-- Marks a label that has not been visited, visits its successors, the last one first, and then
lists the label. -/
def visit (p : Progress) (l : Label) : { q : Progress // q.room ≤ p.room } :=
  if h : l ∈ p.marked then ⟨p, Nat.le_refl _⟩
  else
    let q := visitAll (p.mark l) (succs l).reverse
    ⟨{ q.1 with postOrder := q.1.postOrder ++ [l] }, q.2.trans (Nat.le_of_lt (Progress.room_mark h))⟩
termination_by (p.room, 0)
decreasing_by exact Prod.Lex.left _ _ (Progress.room_mark h)

def visitAll (p : Progress) (ls : List Label) : { q : Progress // q.room ≤ p.room } :=
  match ls with
  | [] => ⟨p, Nat.le_refl _⟩
  | l :: ls =>
    let q := visit p l
    let r := visitAll q.1 ls
    ⟨r.1, r.2.trans q.2⟩
termination_by (p.room, ls.length + 1)
decreasing_by
  · exact Prod.Lex.right _ (Nat.succ_pos _)
  · exact Prod.Lex.right' _ q.2 (Nat.lt_succ_self _)

end

variable {succs} {searched : LabelSet} {p : Progress} {l : Label} {ls : List Label}

theorem visit_of_mem (h : l ∈ p.marked) : (visit succs p l).1 = p := by
  rw [visit, dif_pos h]

theorem visit_of_not_mem (h : l ∉ p.marked) : (visit succs p l).1 =
    let q := (visitAll succs (p.mark l) (succs l).reverse).1
    { q with postOrder := q.postOrder ++ [l] } := by
  rw [visit, dif_neg h]

@[simp] theorem visitAll_nil : (visitAll succs p []).1 = p := by rw [visitAll]

@[simp] theorem visitAll_cons :
    (visitAll succs p (l :: ls)).1 = (visitAll succs (visit succs p l).1 ls).1 := by rw [visitAll]

/-- Trying a successor is visiting it, and working a frame off is visiting what is pending there. -/
theorem descend_eq_visit (hc : ∀ l ∈ searched, ∀ t ∈ succs l, t ∈ searched) :
    (∀ p t, t ∈ searched → ∀ l ts rest,
      descend succs searched p.marked (⟨l, t :: ts⟩ :: rest) p.postOrder.reverse =
        let q := (visit succs p t).1
        descend succs searched q.marked (⟨l, ts⟩ :: rest) q.postOrder.reverse) ∧
    ∀ p ts, (∀ t ∈ ts, t ∈ searched) → ∀ l rest,
      descend succs searched p.marked (⟨l, ts⟩ :: rest) p.postOrder.reverse =
        let q := (visitAll succs p ts).1
        descend succs searched q.marked rest (l :: q.postOrder.reverse) := by
  -- The cases are a marked label, an unmarked one, no labels and a label before others.
  apply visit.mutual_induct
  · intro p t hm ht l ts rest
    rw [descend, dif_pos ht, dif_pos hm, visit_of_mem hm]
  · intro p t hm ih ht l ts rest
    have hsuccs : ∀ u ∈ (succs t).reverse, u ∈ searched := fun u hu => hc t ht u (List.mem_reverse.mp hu)
    let q := (visitAll succs (p.mark t) (succs t).reverse).1
    calc descend succs searched p.marked (⟨l, t :: ts⟩ :: rest) p.postOrder.reverse
        = descend succs searched (p.mark t).marked (Frame.enter succs t :: ⟨l, ts⟩ :: rest)
            (p.mark t).postOrder.reverse := by
          rw [descend, dif_pos ht, dif_neg hm]
          rfl
      _ = descend succs searched q.marked (⟨l, ts⟩ :: rest) (t :: q.postOrder.reverse) := ih hsuccs t _
      _ = _ := by
          rw [visit_of_not_mem hm]
          simp only [List.reverse_append, List.reverse_singleton, List.singleton_append, q]
  · intro p _ l rest
    rw [descend, visitAll_nil]
  · intro p t ts _ iht ihts _ hts l rest
    obtain ⟨ht, hts⟩ := List.forall_mem_cons.mp hts
    rw [iht ht, visitAll_cons]
    exact ihts hts l rest

/-- The trees of the roots one after the other, each of them in reverse post-order. What has been
marked for one root stays marked for the next ones. -/
def trees (succs : Label → List Label) (marked : LabelSet) : List Label → List Label
  | [] => []
  | r :: rs =>
    let tree := (visit succs { marked } r).1
    tree.postOrder.reverse ++ trees succs tree.marked rs

theorem Forest.grow_eq_visit (hc : ∀ l ∈ searched, ∀ t ∈ succs l, t ∈ searched) {root : Label}
    (hr : root ∈ searched) (f : Forest) :
    let tree := (visit succs { marked := f.marked } root).1
    f.grow succs searched root = .ok ⟨tree.marked, f.order ++ tree.postOrder.reverse⟩ := by
  intro tree
  rw [grow, if_pos hr]
  by_cases hm : root ∈ f.marked
  · have htree : tree = { marked := f.marked } := visit_of_mem hm
    rw [if_pos hm, htree]
    simp
  · have hsuccs : ∀ u ∈ (succs root).reverse, u ∈ searched := fun u hu =>
      hc root hr u (List.mem_reverse.mp hu)
    have hdescend := (descend_eq_visit hc).2 (Progress.mark { marked := f.marked } root) _ hsuccs root []
    have htree : tree = _ := visit_of_not_mem hm
    rw [if_neg hm, htree]
    simp only [Progress.mark, List.reverse_nil, Frame.enter, descend] at hdescend ⊢
    rw [hdescend]
    simp [bind, Except.bind, pure, Except.pure]

theorem Forest.order_grow_all (hc : ∀ l ∈ searched, ∀ t ∈ succs l, t ∈ searched) {roots : List Label}
    (hr : ∀ r ∈ roots, r ∈ searched) (f : Forest) :
    ∃ f', roots.foldlM (grow succs searched) f = .ok f' ∧
      f'.order.toList = f.order.toList ++ trees succs f.marked roots := by
  induction roots generalizing f with
  | nil => exact ⟨f, rfl, (List.append_nil _).symm⟩
  | cons r rs ih =>
    obtain ⟨hr, hrs⟩ := List.forall_mem_cons.mp hr
    let tree := (visit succs { marked := f.marked } r).1
    obtain ⟨f', hf', horder⟩ := ih hrs ⟨tree.marked, f.order ++ tree.postOrder.reverse⟩
    refine ⟨f', ?_, ?_⟩
    · rw [List.foldlM_cons, grow_eq_visit hc hr]
      exact hf'
    · rw [horder, trees, Array.toList_appendList, List.append_assoc]

theorem traverse_eq_trees (hc : ∀ l ∈ searched, ∀ t ∈ succs l, t ∈ searched) {roots : List Label}
    (hr : ∀ r ∈ roots, r ∈ searched) : traverse succs searched roots = .ok (trees succs ∅ roots) := by
  obtain ⟨f, hf, horder⟩ := Forest.order_grow_all hc hr {}
  rw [traverse, hf]
  exact congrArg Except.ok horder

end DepthFirst

namespace FlowGraph
variable {S : Type} {g : FlowGraph S}

/-- Wherever a search stays inside the listed labels, the visiting order is what the recursion gives
from the entries as they are listed, then from the labels without predecessors and then from all
labels, both in ascending order. -/
theorem reversePostOrder_eq_trees (h : g.Searchable) :
    ∃ sources labels,
      Ascending (fun l => l ∈ g.ids ∧ ∃ n, g.nodes[l]? = some n ∧ ∀ k, n.preds.get k = []) sources ∧
      Ascending (· ∈ g.ids) labels ∧
      g.reversePostOrder = .ok (DepthFirst.trees g.targets ∅ (g.entries ++ sources ++ labels)) := by
  refine ⟨g.domain.toList.filter g.isSource, g.domain.toList, ⟨?_, fun l => ?_⟩, ascending_domain, ?_⟩
  · exact ascending_domain.1.filter g.isSource
  · rw [List.mem_filter, ascending_domain.2, isSource_iff]
  · refine reversePostOrder_eq_ok_iff.mpr ⟨h.node_mem, DepthFirst.traverse_eq_trees ?_ ?_⟩
    · exact fun l hl t ht => mem_domain.mpr (h.target_mem l (mem_domain.mp hl) t ht)
    · exact fun r hr => mem_domain.mpr ((mem_roots.mp hr).elim (h.entry_mem r) id)

/-- Parallel edges, a cycle, two loops and an entry that is listed twice. -/
def knot : FlowGraph Unit := ofNodes [1, 1] [
  { label := 3, succs := ⟨[], [2]⟩, stmt := () },
  { label := 0, preds := ⟨[1], [0]⟩, succs := ⟨[1, 1], [2, 0]⟩, stmt := () },
  { label := 1, preds := ⟨[0, 0], []⟩, succs := ⟨[0], []⟩, stmt := () },
  { label := 2, preds := ⟨[], [0, 2, 3]⟩, succs := ⟨[], [2]⟩, stmt := () }]

theorem reversePostOrder_eq_trees_knot : knot.reversePostOrder = .ok [1, 0, 2, 3] ∧
    ∃ sources labels,
      Ascending (fun l => l ∈ knot.ids ∧ ∃ n, knot.nodes[l]? = some n ∧ ∀ k, n.preds.get k = []) sources ∧
      Ascending (· ∈ knot.ids) labels ∧
      DepthFirst.trees knot.targets ∅ ([1, 1] ++ sources ++ labels) = [1, 0, 2, 3] := by
  have hvalid : knot.Valid := violation?_eq_ok_none_iff.mp rfl
  have horder : knot.reversePostOrder = .ok [1, 0, 2, 3] := by decide +kernel
  obtain ⟨sources, labels, hsources, hlabels, htrees⟩ := reversePostOrder_eq_trees hvalid.searchable
  exact ⟨horder, sources, labels, hsources, hlabels, Except.ok.inj (htrees.symm.trans horder)⟩

end FlowGraph
end FlowAnalysis
