import Mathlib.Data.List.Nodup
import Mathlib.Logic.Relation
import FlowAnalysis.Proofs.Lookup
import FlowAnalysis.Traversal.DepthFirst

/-! # One tree of a depth-first search

If all frames on the stack were popped now, their labels would come first, that
of the lowest frame in front, and the finished ones last. Popping a frame does
not change this order, and a new frame puts its label right before the finished
ones. What holds of the order at all times holds of the tree in the end: it
begins with the root, and an edge that leads back in it leads to a label from
which its source can be reached.
-/
namespace FlowAnalysis.DepthFirst

/-- The second label can be reached from the first. -/
def Leads (succs : Label → List Label) : Label → Label → Prop :=
  Relation.ReflTransGen fun a b => b ∈ succs a

theorem Leads.preserves {succs : Label → List Label} {a b : Label} {P : Label → Prop}
    (h : Leads succs a b) (hP : ∀ u, P u → ∀ t ∈ succs u, P t) (ha : P a) : P b := by
  induction h with
  | refl => exact ha
  | tail _ hedge ih => exact hP _ ih _ hedge

variable {succs : Label → List Label} {searched before marked marked' : LabelSet} {root l t x : Label}
  {ts order waiting finished : List Label} {stack : List Frame}

/-- The labels of one tree in their order, with the labels of earlier trees kept apart. -/
structure Tree (succs : Label → List Label) (searched before : LabelSet) (root : Label)
    (marked : LabelSet) (order : List Label) : Prop where
  mem_marked : ∀ x, x ∈ marked ↔ x ∈ before ∨ x ∈ order
  inside : ∀ x ∈ order, x ∈ searched
  fresh : ∀ x ∈ order, x ∉ before
  nodup : order.Nodup
  head : order.head? = some root
  reached : ∀ x ∈ order, Leads succs root x
  backward : order.Pairwise fun v u => v ∈ succs u → Leads succs v u

namespace Tree

theorem single (hr : root ∈ searched) (hb : root ∉ before) :
    Tree succs searched before root (before.insert root) [root] where
  mem_marked x := by
    rw [mem_insert_iff]
    simp [or_comm, eq_comm]
  inside := by simpa using hr
  fresh := by simpa using hb
  nodup := List.nodup_singleton root
  head := rfl
  reached x hx := by
    obtain rfl := List.mem_singleton.mp hx
    exact .refl
  backward := List.pairwise_singleton _ root

/-- A new label goes between the waiting labels, which lead to it, and the finished ones, which do not
have it for a successor. -/
theorem insert (h : Tree succs searched before root marked (waiting ++ finished)) (hne : waiting ≠ [])
    (hs : t ∈ searched) (hm : t ∉ marked) (hwaiting : ∀ f ∈ waiting, Leads succs f t)
    (hfinished : ∀ u ∈ finished, t ∉ succs u) :
    Tree succs searched before root (marked.insert t) (waiting ++ t :: finished) := by
  have hmem : ∀ x, x ∈ waiting ++ t :: finished ↔ x = t ∨ x ∈ waiting ++ finished := fun x => by
    simp [or_left_comm]
  have hroot : root ∈ waiting := by
    have hhead := h.head
    rw [List.head?_append_of_ne_nil _ hne] at hhead
    exact List.mem_of_head? hhead
  obtain ⟨hbw, hbf, hbc⟩ := List.pairwise_append.mp h.backward
  constructor
  case mem_marked =>
    intro x
    rw [mem_insert_iff, h.mem_marked, hmem, eq_comm]
    tauto
  case inside =>
    intro x hx
    rcases (hmem x).mp hx with rfl | hx
    · exact hs
    · exact h.inside x hx
  case fresh =>
    intro x hx
    rcases (hmem x).mp hx with rfl | hx
    · exact fun hb => hm ((h.mem_marked x).mpr (.inl hb))
    · exact h.fresh x hx
  case nodup => exact List.nodup_middle.mpr (List.nodup_cons.mpr
      ⟨fun ht => hm ((h.mem_marked t).mpr (.inr ht)), h.nodup⟩)
  case head => rw [List.head?_append_of_ne_nil _ hne, ← List.head?_append_of_ne_nil _ hne, h.head]
  case reached =>
    intro x hx
    rcases (hmem x).mp hx with rfl | hx
    · exact hwaiting root hroot
    · exact h.reached x hx
  case backward =>
    refine List.pairwise_append.mpr ⟨hbw, List.pairwise_cons.mpr ⟨?_, hbf⟩, ?_⟩
    · exact fun u hu ht => absurd ht (hfinished u hu)
    · intro v hv u hu hedge
      rcases List.mem_cons.mp hu with rfl | hu
      · exact hwaiting v hv
      · exact hbc v hv u hu hedge

/-- A finished tree holds what its root leads to, but for the labels of earlier trees. -/
theorem mem_iff (h : Tree succs searched before root marked order)
    (hc : ∀ u ∈ order, ∀ t ∈ succs u, t ∈ marked) (hb : ∀ u ∈ before, ∀ t ∈ succs u, t ∈ before) :
    x ∈ order ↔ Leads succs root x ∧ x ∉ before := by
  have hclosed : ∀ u ∈ marked, ∀ t ∈ succs u, t ∈ marked := by
    intro u hu t ht
    rcases (h.mem_marked u).mp hu with hu | hu
    · exact (h.mem_marked t).mpr (.inl (hb u hu t ht))
    · exact hc u hu t ht
  constructor
  · exact fun hx => ⟨h.reached x hx, h.fresh x hx⟩
  · rintro ⟨hlead, hx⟩
    have hroot : root ∈ marked := (h.mem_marked root).mpr (.inr (List.mem_of_head? h.head))
    exact ((h.mem_marked x).mp (hlead.preserves hclosed hroot)).resolve_left hx

end Tree

/-- What is known of the frames: the lower ones lead to the higher ones, and successors that are not
to be tried any more are marked. -/
structure Frames (succs : Label → List Label) (marked : LabelSet) (stack : List Frame) : Prop where
  path : stack.Pairwise fun f g => Leads succs g.label f.label
  pending : ∀ f ∈ stack, ∀ t ∈ f.pending, t ∈ succs f.label
  tried : ∀ f ∈ stack, ∀ t ∈ succs f.label, t ∈ f.pending ∨ t ∈ marked

namespace Frames

theorem single (marked : LabelSet) (root : Label) : Frames succs marked [Frame.enter succs root] where
  path := List.pairwise_singleton _ _
  pending := by simp [Frame.enter]
  tried := by simpa [Frame.enter] using fun t ht => .inl ht

theorem pop (h : Frames succs marked (⟨l, ts⟩ :: stack)) : Frames succs marked stack where
  path := (List.pairwise_cons.mp h.path).2
  pending := (List.forall_mem_cons.mp h.pending).2
  tried := (List.forall_mem_cons.mp h.tried).2

/-- A successor that has become marked needs not be tried any more. -/
theorem advance (h : Frames succs marked (⟨l, t :: ts⟩ :: stack)) (hm : ∀ x ∈ marked, x ∈ marked')
    (ht : t ∈ marked') : Frames succs marked' (⟨l, ts⟩ :: stack) := by
  obtain ⟨hpending, hpendings⟩ := List.forall_mem_cons.mp h.pending
  obtain ⟨htried, htrieds⟩ := List.forall_mem_cons.mp h.tried
  refine ⟨List.pairwise_cons.mpr (List.pairwise_cons.mp h.path), List.forall_mem_cons.mpr ⟨?_, hpendings⟩,
    List.forall_mem_cons.mpr ⟨?_, fun f hf x hx => (htrieds f hf x hx).imp_right (hm x)⟩⟩
  · exact fun x hx => hpending x (List.mem_cons_of_mem _ hx)
  · intro x hx
    rcases htried x hx with hp | hx
    · rcases List.mem_cons.mp hp with rfl | hp
      · exact .inr ht
      · exact .inl hp
    · exact .inr (hm x hx)

/-- Every frame leads to the successor that is tried at the top. -/
theorem leads (h : Frames succs marked (⟨l, t :: ts⟩ :: stack)) :
    ∀ f ∈ (⟨l, ts⟩ :: stack : List Frame), Leads succs f.label t := by
  have hedge : t ∈ succs l := h.pending _ List.mem_cons_self t List.mem_cons_self
  intro f hf
  rcases List.mem_cons.mp hf with rfl | hf
  · exact .single hedge
  · exact .tail ((List.pairwise_cons.mp h.path).1 f hf) hedge

theorem enter (h : Frames succs marked stack) (hlead : ∀ f ∈ stack, Leads succs f.label t) :
    Frames succs marked (Frame.enter succs t :: stack) where
  path := List.pairwise_cons.mpr ⟨hlead, h.path⟩
  pending := List.forall_mem_cons.mpr ⟨by simp [Frame.enter], h.pending⟩
  tried := List.forall_mem_cons.mpr ⟨by simpa [Frame.enter] using fun t ht => .inl ht, h.tried⟩

end Frames

/-- The order in which the labels would stand if all frames were popped now. -/
def unwound (stack : List Frame) (finished : List Label) : List Label :=
  (stack.map Frame.label).reverse ++ finished

theorem unwound_cons : unwound (⟨l, ts⟩ :: stack) finished = unwound stack (l :: finished) := by
  simp [unwound]

/-- What holds at any time of a search from a root. -/
structure Descent (succs : Label → List Label) (searched before : LabelSet) (root : Label)
    (marked : LabelSet) (stack : List Frame) (finished : List Label) : Prop where
  tree : Tree succs searched before root marked (unwound stack finished)
  frames : Frames succs marked stack
  closed : ∀ u ∈ finished, ∀ t ∈ succs u, t ∈ marked

namespace Descent

theorem start (hr : root ∈ searched) (hb : root ∉ before) :
    Descent succs searched before root (before.insert root) [Frame.enter succs root] [] :=
  ⟨.single hr hb, .single _ root, by simp⟩

theorem pop (h : Descent succs searched before root marked (⟨l, []⟩ :: stack) finished) :
    Descent succs searched before root marked stack (l :: finished) := by
  refine ⟨unwound_cons ▸ h.tree, h.frames.pop, List.forall_mem_cons.mpr ⟨fun t ht => ?_, h.closed⟩⟩
  exact (h.frames.tried _ List.mem_cons_self t ht).resolve_left List.not_mem_nil

theorem skip (h : Descent succs searched before root marked (⟨l, t :: ts⟩ :: stack) finished)
    (ht : t ∈ marked) : Descent succs searched before root marked (⟨l, ts⟩ :: stack) finished :=
  ⟨h.tree, h.frames.advance (fun _ hx => hx) ht, h.closed⟩

/-- No finished label has an unmarked one for a successor, so no edge leads back to the new frame. -/
theorem push (h : Descent succs searched before root marked (⟨l, t :: ts⟩ :: stack) finished)
    (hs : t ∈ searched) (hm : t ∉ marked) :
    Descent succs searched before root (marked.insert t) (Frame.enter succs t :: ⟨l, ts⟩ :: stack)
      finished := by
  have htree : Tree succs searched before root marked (unwound (⟨l, ts⟩ :: stack) finished) := h.tree
  have hlead := h.frames.leads
  have hgrow : ∀ x ∈ marked, x ∈ marked.insert t := fun x hx => mem_insert_iff.mpr (.inr hx)
  refine ⟨?_, (h.frames.advance hgrow (mem_insert_iff.mpr (.inl rfl))).enter hlead,
    fun u hu x hx => hgrow x (h.closed u hu x hx)⟩
  rw [Frame.enter, unwound_cons]
  refine htree.insert (by simp) hs hm (fun x hx => ?_) fun u hu ht => hm (h.closed u hu t ht)
  obtain ⟨f, hf, rfl⟩ := List.mem_map.mp (List.mem_reverse.mp hx)
  exact hlead f hf

theorem of_descend (h : Descent succs searched before root marked stack finished)
    (he : descend succs searched marked stack finished = .ok (marked', order)) :
    Descent succs searched before root marked' [] order := by
  fun_induction descend succs searched marked stack finished with
  | case1 marked finished =>
    cases he
    exact h
  | case2 marked finished l rest ih => exact ih h.pop he
  | case3 marked finished l t ts rest ht hm ih => exact ih (h.skip hm) he
  | case4 marked finished l t ts rest ht hm ih => exact ih (h.push ht hm) he
  | case5 marked finished l t ts rest ht => cases he

/-- When the successors of the searched labels are searched as well, no foreign label is met. -/
theorem exists_descend (h : Descent succs searched before root marked stack finished)
    (hc : ∀ l ∈ searched, ∀ t ∈ succs l, t ∈ searched) :
    ∃ r, descend succs searched marked stack finished = .ok r := by
  fun_induction descend succs searched marked stack finished with
  | case1 marked finished => exact ⟨_, rfl⟩
  | case2 marked finished l rest ih => exact ih h.pop
  | case3 marked finished l t ts rest ht hm ih => exact ih (h.skip hm)
  | case4 marked finished l t ts rest ht hm ih => exact ih (h.push ht hm)
  | case5 marked finished l t ts rest ht =>
    have hl : l ∈ searched := h.tree.inside l (by simp [unwound])
    exact absurd (hc l hl t (h.frames.pending _ List.mem_cons_self t List.mem_cons_self)) ht

end Descent
end FlowAnalysis.DepthFirst
