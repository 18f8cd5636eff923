import FlowAnalysis.Proofs.Contract
import FlowAnalysis.Proofs.Search
import FlowAnalysis.Traversal.VisitOrder

/-! # How a depth-first search lays out the labels

The search grows one tree after the other. Before each tree exactly those labels
are marked that earlier roots lead to, so the marked labels are closed under
successors, and a tree takes whatever its root leads to of the others. The
visiting order is the sequence of the trees. It exists exactly when the search
never leaves the listed labels.
-/
namespace FlowAnalysis.DepthFirst

/-- One of the roots leads to the label. -/
def LedTo (succs : Label → List Label) (roots : List Label) (x : Label) : Prop :=
  ∃ r ∈ roots, Leads succs r x

variable {succs : Label → List Label} {searched : LabelSet} {earlier roots order : List Label}
  {root x y : Label} {f f' : Forest}

theorem LedTo.trans (h : LedTo succs roots x) (hxy : Leads succs x y) : LedTo succs roots y :=
  h.imp fun _ hr => ⟨hr.1, hr.2.trans hxy⟩

@[simp] theorem not_ledTo_nil : ¬ LedTo succs [] x := by simp [LedTo]

theorem ledTo_cons : LedTo succs (root :: roots) x ↔ Leads succs root x ∨ LedTo succs roots x := by
  simp [LedTo]

theorem ledTo_snoc :
    LedTo succs (earlier ++ [root]) x ↔ LedTo succs earlier x ∨ Leads succs root x := by
  simp [LedTo, or_and_right, exists_or]

/-- What a root adds to the order: what it leads to and no earlier root does, the root first. Inside,
an edge to the same place or to one before leads to a label that leads to its source. -/
structure Block (succs : Label → List Label) (earlier : List Label) (root : Label)
    (block : List Label) : Prop where
  head : block.head? = some root
  nodup : block.Nodup
  mem_iff : ∀ x, x ∈ block ↔ Leads succs root x ∧ ¬ LedTo succs earlier x
  backward : ∀ {i j : Nat} {u v : Label}, block[i]? = some u → block[j]? = some v → v ∈ succs u →
    j ≤ i → Leads succs v u

/-- The blocks of the roots one after the other. A root that an earlier one leads to has none. -/
inductive Layout (succs : Label → List Label) : List Label → List Label → List Label → Prop
  | done {earlier : List Label} : Layout succs earlier [] []
  | placed {earlier roots order : List Label} {root : Label} : LedTo succs earlier root →
      Layout succs (earlier ++ [root]) roots order → Layout succs earlier (root :: roots) order
  | grown {earlier roots block order : List Label} {root : Label} : Block succs earlier root block →
      Layout succs (earlier ++ [root]) roots order → Layout succs earlier (root :: roots) (block ++ order)

namespace Layout

theorem mem_iff (h : Layout succs earlier roots order) :
    x ∈ order ↔ LedTo succs roots x ∧ ¬ LedTo succs earlier x := by
  induction h with
  | done => simp
  | placed hroot _ ih =>
    have hlead := hroot.trans (y := x)
    rw [ih, ledTo_snoc, ledTo_cons]
    tauto
  | grown hb _ ih =>
    rw [List.mem_append, hb.mem_iff, ih, ledTo_snoc, ledTo_cons]
    tauto

theorem nodup (h : Layout succs earlier roots order) : order.Nodup := by
  induction h with
  | done => exact List.nodup_nil
  | placed _ _ ih => exact ih
  | grown hb hl ih =>
    refine List.nodup_append'.mpr ⟨hb.nodup, ih, fun x hx hy => ?_⟩
    exact (hl.mem_iff.mp hy).2 (ledTo_snoc.mpr (.inr ((hb.mem_iff x).mp hx).1))

end Layout

/-- A finished tree is the block of its root. -/
theorem Descent.block {before marked : LabelSet} {tree : List Label}
    (h : Descent succs searched before root marked [] tree)
    (hb : ∀ x, x ∈ before ↔ LedTo succs earlier x) : Block succs earlier root tree where
  head := h.tree.head
  nodup := h.tree.nodup
  mem_iff x := by
    have hclosed : ∀ u ∈ before, ∀ t ∈ succs u, t ∈ before := fun u hu t ht =>
      (hb t).mpr (((hb u).mp hu).trans (.single ht))
    rw [← hb]
    exact h.tree.mem_iff h.closed hclosed
  backward := by
    intro i j u v hu hv hedge hij
    obtain ⟨hi, rfl⟩ := List.getElem?_eq_some_iff.mp hu
    obtain ⟨hj, rfl⟩ := List.getElem?_eq_some_iff.mp hv
    rcases Nat.eq_or_lt_of_le hij with rfl | hlt
    · exact .refl
    · exact List.pairwise_iff_getElem.mp h.tree.backward j i hj hi hlt hedge

/-- The marked labels are those that the roots lead to that have had their turn. -/
structure Forest.Spans (f : Forest) (succs : Label → List Label) (searched : LabelSet)
    (earlier : List Label) : Prop where
  mem_marked : ∀ x, x ∈ f.marked ↔ LedTo succs earlier x
  inside : ∀ x ∈ f.marked, x ∈ searched

namespace Forest

theorem grow_cases (he : f.grow succs searched root = .ok f') :
    root ∈ searched ∧ (root ∈ f.marked ∧ f' = f ∨
      root ∉ f.marked ∧ ∃ tree, Descent succs searched f.marked root f'.marked [] tree ∧
        f'.order = f.order ++ tree) := by
  unfold grow at he
  split at he
  case isFalse => cases he
  next hs =>
  refine ⟨hs, ?_⟩
  split at he
  next hm =>
    cases he
    exact .inl ⟨hm, rfl⟩
  next hm =>
    obtain ⟨⟨marked, tree⟩, hd, he⟩ := Absent.bind_eq_ok_iff.mp he
    cases he
    exact .inr ⟨hm, tree, (Descent.start hs hm).of_descend hd, rfl⟩

namespace Spans

theorem empty : Spans {} succs searched [] := ⟨by simp, by simp⟩

theorem grow (h : f.Spans succs searched earlier) (he : f.grow succs searched root = .ok f') :
    f'.Spans succs searched (earlier ++ [root]) ∧
      (LedTo succs earlier root ∧ f'.order = f.order ∨
        ∃ block, Block succs earlier root block ∧ f'.order = f.order ++ block) := by
  obtain ⟨hs, ⟨hm, rfl⟩ | ⟨hm, tree, hd, horder⟩⟩ := grow_cases he
  · have hroot := (h.mem_marked root).mp hm
    refine ⟨⟨fun x => ?_, h.inside⟩, .inl ⟨hroot, rfl⟩⟩
    rw [h.mem_marked, ledTo_snoc, or_iff_left_of_imp hroot.trans]
  · have htree : Tree succs searched f.marked root f'.marked tree := hd.tree
    have hblock := hd.block h.mem_marked
    refine ⟨⟨fun x => ?_, fun x hx => ?_⟩, .inr ⟨tree, hblock, horder⟩⟩
    · rw [htree.mem_marked, h.mem_marked, hblock.mem_iff, ledTo_snoc]
      tauto
    · rcases (htree.mem_marked x).mp hx with hx | hx
      · exact h.inside x hx
      · exact htree.inside x hx

theorem layout (h : f.Spans succs searched earlier)
    (he : roots.foldlM (Forest.grow succs searched) f = .ok f') :
    f'.Spans succs searched (earlier ++ roots) ∧
      ∃ order, f'.order.toList = f.order.toList ++ order ∧ Layout succs earlier roots order := by
  induction roots generalizing f earlier with
  | nil =>
    cases he
    exact ⟨by simpa using h, [], by simp, .done⟩
  | cons r rs ih =>
    obtain ⟨g, hg, he⟩ := Absent.bind_eq_ok_iff.mp he
    obtain ⟨hspans, hcase⟩ := h.grow hg
    obtain ⟨hall, order, horder, hlayout⟩ := ih hspans he
    refine ⟨by simpa using hall, ?_⟩
    rcases hcase with ⟨hr, hg⟩ | ⟨block, hb, hg⟩
    · exact ⟨order, hg ▸ horder, .placed hr hlayout⟩
    · exact ⟨block ++ order, by simp [horder, hg], .grown hb hlayout⟩

end Spans

theorem exists_grow (hc : ∀ l ∈ searched, ∀ t ∈ succs l, t ∈ searched) (hr : root ∈ searched)
    (f : Forest) : ∃ f', f.grow succs searched root = .ok f' := by
  unfold grow
  rw [if_pos hr]
  split
  · exact ⟨f, rfl⟩
  · next hm =>
    have hstart : Descent succs searched f.marked root _ _ _ := .start hr hm
    obtain ⟨r, hd⟩ := hstart.exists_descend hc
    rw [hd]
    exact ⟨_, rfl⟩

theorem exists_grow_all (hc : ∀ l ∈ searched, ∀ t ∈ succs l, t ∈ searched)
    (hr : ∀ r ∈ roots, r ∈ searched) (f : Forest) :
    ∃ f', roots.foldlM (grow succs searched) f = .ok f' := by
  induction roots generalizing f with
  | nil => exact ⟨f, rfl⟩
  | cons r rs ih =>
    obtain ⟨hr, hrs⟩ := List.forall_mem_cons.mp hr
    obtain ⟨g, hg⟩ := exists_grow hc hr f
    rw [List.foldlM_cons, hg]
    exact ih hrs g

end Forest

theorem layout_of_traverse (he : traverse succs searched roots = .ok order) :
    Layout succs [] roots order ∧ ∀ x, LedTo succs roots x → x ∈ searched := by
  obtain ⟨f, hf, he⟩ := Absent.bind_eq_ok_iff.mp he
  cases he
  obtain ⟨hspans, order, horder, hlayout⟩ := Forest.Spans.empty.layout hf
  exact ⟨by simpa [horder] using hlayout, fun x hx => hspans.inside x ((hspans.mem_marked x).mpr hx)⟩

theorem exists_traverse (hc : ∀ l ∈ searched, ∀ t ∈ succs l, t ∈ searched)
    (hr : ∀ r ∈ roots, r ∈ searched) : ∃ order, traverse succs searched roots = .ok order := by
  obtain ⟨f, hf⟩ := Forest.exists_grow_all hc hr {}
  exact ⟨f.order.toList, by rw [traverse, hf]; rfl⟩

end FlowAnalysis.DepthFirst

namespace FlowAnalysis
variable {S : Type}

/-- The labels with a property, each of them once, in ascending order. -/
def Ascending (P : Label → Prop) (ls : List Label) : Prop := ls.Pairwise (· < ·) ∧ ∀ l, l ∈ ls ↔ P l

namespace FlowGraph
variable {g : FlowGraph S} {order : List Label}

theorem mem_targets {l t : Label} :
    t ∈ g.targets l ↔ ∃ n, g.nodes[l]? = some n ∧ ∃ k, t ∈ n.succs.get k := by
  unfold targets
  cases g.nodes[l]? with
  | none => simp
  | some n =>
    simp only [Node.targets, List.mem_append, Option.some.injEq, exists_eq_left']
    constructor
    · rintro (h | h)
      · exact ⟨.notTaken, h⟩
      · exact ⟨.taken, h⟩
    · rintro ⟨k, h⟩
      cases k
      · exact .inl h
      · exact .inr h

theorem isSource_iff {l : Label} :
    g.isSource l = true ↔ ∃ n, g.nodes[l]? = some n ∧ ∀ k, n.preds.get k = [] := by
  unfold isSource
  cases g.nodes[l]? with
  | none => simp
  | some n =>
    simp only [Node.sources, List.isEmpty_iff, List.append_eq_nil_iff, Option.some.injEq, exists_eq_left']
    exact ⟨fun h k => by cases k <;> simp [PerClass.get, h], fun h => ⟨h .notTaken, h .taken⟩⟩

/-- A search over the listed labels finds a node at each of them and never leaves them. -/
structure Searchable (g : FlowGraph S) : Prop where
  node_mem : ∀ l ∈ g.ids, l ∈ g.nodes
  entry_mem : ∀ l ∈ g.entries, l ∈ g.ids
  target_mem : ∀ l ∈ g.ids, ∀ t ∈ g.targets l, t ∈ g.ids

theorem Valid.searchable (h : g.Valid) : g.Searchable where
  node_mem l := (h.mem_ids l).mp
  entry_mem _ := h.entry_mem
  target_mem l _ t ht := by
    obtain ⟨n, hn, k, hk⟩ := mem_targets.mp ht
    exact h.neighbour_mem hn t (Node.mem_neighbours.mpr ⟨k, .inr hk⟩)

theorem ascending_domain : Ascending (· ∈ g.ids) g.domain.toList := by
  refine ⟨Std.ExtTreeSet.ordered_toList.imp fun h => Std.compare_eq_lt.mp h, fun l => ?_⟩
  rw [Std.ExtTreeSet.mem_toList, mem_domain]

theorem mem_roots {r : Label} : r ∈ g.roots ↔ r ∈ g.entries ∨ r ∈ g.ids := by
  simp only [roots, List.mem_append, List.mem_filter, ascending_domain.2]
  tauto

theorem reversePostOrder_eq_ok_iff : g.reversePostOrder = .ok order ↔
    (∀ l ∈ g.ids, l ∈ g.nodes) ∧ DepthFirst.traverse g.targets g.domain g.roots = .ok order := by
  have hfind : (g.domain.toList.find? fun l => !g.nodes.contains l) = none ↔
      ∀ l ∈ g.ids, l ∈ g.nodes := by
    simp [List.find?_eq_none, mem_domain]
  rw [← hfind, reversePostOrder]
  cases g.domain.toList.find? fun l => !g.nodes.contains l <;> simp

theorem Searchable.exists_reversePostOrder (h : g.Searchable) :
    ∃ order, g.reversePostOrder = .ok order := by
  have hclosed : ∀ l ∈ g.domain, ∀ t ∈ g.targets l, t ∈ g.domain := fun l hl t ht =>
    mem_domain.mpr (h.target_mem l (mem_domain.mp hl) t ht)
  have hroots : ∀ r ∈ g.roots, r ∈ g.domain := fun r hr =>
    mem_domain.mpr ((mem_roots.mp hr).elim (h.entry_mem r) id)
  obtain ⟨order, he⟩ := DepthFirst.exists_traverse hclosed hroots
  exact ⟨order, reversePostOrder_eq_ok_iff.mpr ⟨h.node_mem, he⟩⟩

theorem layout_of_reversePostOrder (he : g.reversePostOrder = .ok order) :
    DepthFirst.Layout g.targets [] g.roots order :=
  (DepthFirst.layout_of_traverse (reversePostOrder_eq_ok_iff.mp he).2).1

/-- A search that comes to its end has marked all that its roots lead to, and it has looked every
label up that it has marked. -/
theorem searchable_of_reversePostOrder (he : g.reversePostOrder = .ok order) : g.Searchable := by
  obtain ⟨hnode, ht⟩ := reversePostOrder_eq_ok_iff.mp he
  obtain ⟨_, hinside⟩ := DepthFirst.layout_of_traverse ht
  refine ⟨hnode, fun l hl => ?_, fun l hl t ht => ?_⟩
  · exact mem_domain.mp (hinside l ⟨l, mem_roots.mpr (.inl hl), .refl⟩)
  · exact mem_domain.mp (hinside t ⟨l, mem_roots.mpr (.inr hl), .single ht⟩)

theorem mem_reversePostOrder (he : g.reversePostOrder = .ok order) {l : Label} :
    l ∈ order ↔ l ∈ g.ids := by
  obtain ⟨hlayout, hinside⟩ := DepthFirst.layout_of_traverse (reversePostOrder_eq_ok_iff.mp he).2
  rw [hlayout.mem_iff, and_iff_left DepthFirst.not_ledTo_nil]
  exact ⟨fun h => mem_domain.mp (hinside l h), fun h => ⟨l, mem_roots.mpr (.inr h), .refl⟩⟩

/-- A valid graph has a visiting order of either kind, and all its labels are in it. -/
theorem Valid.visitOrder_total (h : g.Valid) (order : VisitOrder) :
    ∃ ls, g.visitOrder order = .ok ls ∧ ∀ l ∈ g.ids, l ∈ ls := by
  cases order with
  | label => exact ⟨g.domain.toList, rfl, fun l => (ascending_domain.2 l).mpr⟩
  | reversePostOrder =>
    obtain ⟨ls, he⟩ := h.searchable.exists_reversePostOrder
    exact ⟨ls, he, fun l => (mem_reversePostOrder he).mpr⟩

/-- The labels can be put into reverse post-order exactly when a search over them never leaves them.
Each of them then stands there once, and the order is laid out in blocks: those of the entries as they
are listed, of the labels without predecessors and of all labels, both in ascending order. -/
theorem reversePostOrder_layout (g : FlowGraph S) :
    ((∃ order, g.reversePostOrder = .ok order) ↔ g.Searchable) ∧
    ∀ order, g.reversePostOrder = .ok order → order.Nodup ∧ (∀ l, l ∈ order ↔ l ∈ g.ids) ∧
      ∃ sources labels,
        Ascending (fun l => l ∈ g.ids ∧ ∃ n, g.nodes[l]? = some n ∧ ∀ k, n.preds.get k = []) sources ∧
        Ascending (· ∈ g.ids) labels ∧
        DepthFirst.Layout g.targets [] (g.entries ++ sources ++ labels) order := by
  refine ⟨⟨fun ⟨_, he⟩ => searchable_of_reversePostOrder he, fun h => h.exists_reversePostOrder⟩, ?_⟩
  intro order he
  have hlayout := layout_of_reversePostOrder he
  refine ⟨hlayout.nodup, fun _ => mem_reversePostOrder he, g.domain.toList.filter g.isSource,
    g.domain.toList, ⟨?_, fun l => ?_⟩, ascending_domain, hlayout⟩
  · exact ascending_domain.1.filter g.isSource
  · rw [List.mem_filter, ascending_domain.2, isSource_iff]

/-- The label without predecessors leads into the block of the entry but has to come after it. -/
theorem reversePostOrder_layout_crossing :
    let g : FlowGraph Unit := ofNodes [1] [
      { label := 0, succs := ⟨[1], []⟩, stmt := () },
      { label := 1, preds := ⟨[0, 2], []⟩, succs := ⟨[], [2]⟩, stmt := () },
      { label := 2, preds := ⟨[], [1]⟩, succs := ⟨[1], []⟩, stmt := () }]
    g.reversePostOrder = .ok [1, 2, 0] ∧ ∃ sources labels,
      Ascending (fun l => l ∈ g.ids ∧ ∃ n, g.nodes[l]? = some n ∧ ∀ k, n.preds.get k = []) sources ∧
      Ascending (· ∈ g.ids) labels ∧
      DepthFirst.Layout g.targets [] (g.entries ++ sources ++ labels) [1, 2, 0] := by
  intro g
  have horder : g.reversePostOrder = .ok [1, 2, 0] := by decide +kernel
  exact ⟨horder, ((reversePostOrder_layout g).2 _ horder).2.2⟩

end FlowGraph
end FlowAnalysis
