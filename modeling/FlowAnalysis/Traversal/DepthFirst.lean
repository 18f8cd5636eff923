import FlowAnalysis.Label

/-! # Depth-first search with an explicit stack

A frame is a label whose visit is under way, with the successors that are still
to be tried, the last listed one first. A label is marked when its frame is
pushed, and it goes to the front of the finished labels when its frame is
popped: the finished labels are then in reverse post-order, with the first
listed successor in front.

Every step shortens what is left: a frame is as heavy as its untried successors
and one more, an unmarked label as heavy as the frame it would get.
-/
namespace FlowAnalysis.DepthFirst

structure Frame where
  label : Label
  pending : List Label
  deriving DecidableEq, Repr

variable (succs : Label → List Label)

def Frame.enter (l : Label) : Frame := ⟨l, (succs l).reverse⟩

def Frame.weight (f : Frame) : Nat := f.pending.length + 1

def stackWeight : List Frame → Nat
  | [] => 0
  | f :: fs => f.weight + stackWeight fs

/-- The weight of the labels in a list that are not marked. -/
def unmarkedWeight (marked : LabelSet) : List Label → Nat
  | [] => 0
  | l :: ls => (if l ∈ marked then 0 else (Frame.enter succs l).weight) + unmarkedWeight marked ls

/-- What is left to do: the frames on the stack and those that can still be pushed. -/
def weight (searched marked : LabelSet) (stack : List Frame) : Nat :=
  unmarkedWeight succs marked searched.toList + stackWeight stack

theorem mem_insert_iff {marked : LabelSet} {l x : Label} : x ∈ marked.insert l ↔ l = x ∨ x ∈ marked := by
  simp [Std.ExtTreeSet.mem_insert]

theorem unmarkedWeight_insert_le (marked : LabelSet) (l : Label) (ls : List Label) :
    unmarkedWeight succs (marked.insert l) ls ≤ unmarkedWeight succs marked ls := by
  induction ls with
  | nil => exact Nat.le_refl _
  | cons x xs ih =>
    unfold unmarkedWeight
    by_cases hx : x ∈ marked
    · rw [if_pos hx, if_pos (mem_insert_iff.mpr (.inr hx))]
      omega
    · rw [if_neg hx]
      split <;> omega

/-- Marking a label takes its frame off what can still be pushed. -/
theorem unmarkedWeight_insert {marked : LabelSet} {l : Label} {ls : List Label} (h : l ∈ ls)
    (hl : l ∉ marked) :
    unmarkedWeight succs (marked.insert l) ls + (Frame.enter succs l).weight ≤
      unmarkedWeight succs marked ls := by
  induction ls with
  | nil => simp at h
  | cons x xs ih =>
    unfold unmarkedWeight
    by_cases hx : l = x
    · subst hx
      have := unmarkedWeight_insert_le succs marked l xs
      rw [if_neg hl, if_pos (mem_insert_iff.mpr (.inl rfl))]
      omega
    · have := ih ((List.mem_cons.mp h).resolve_left hx)
      by_cases hm : x ∈ marked
      · rw [if_pos hm, if_pos (mem_insert_iff.mpr (.inr hm))]
        omega
      · rw [if_neg hm]
        split <;> omega

/-- Works the stack off. Returns the marked labels and the finished ones. A successor has to be one
of the searched labels. -/
def descend (searched marked : LabelSet) (stack : List Frame) (finished : List Label) :
    Except Absent (LabelSet × List Label) :=
  match stack with
  | [] => .ok (marked, finished)
  | ⟨l, []⟩ :: rest => descend searched marked rest (l :: finished)
  | ⟨l, t :: ts⟩ :: rest =>
    if _hs : t ∈ searched then
      if _hm : t ∈ marked then descend searched marked (⟨l, ts⟩ :: rest) finished
      else descend searched (marked.insert t) (Frame.enter succs t :: ⟨l, ts⟩ :: rest) finished
    else .error ⟨t⟩
termination_by weight succs searched marked stack
decreasing_by
  · simp [weight, stackWeight, Frame.weight]
  · simp [weight, stackWeight, Frame.weight]
  · have := unmarkedWeight_insert succs (Std.ExtTreeSet.mem_toList.mpr _hs) _hm
    simp only [weight, stackWeight, Frame.weight, List.length_cons] at this ⊢
    omega

/-- The trees grown so far: the labels in them and their order. -/
structure Forest where
  marked : LabelSet := ∅
  order : Array Label := #[]

def Forest.grow (searched : LabelSet) (f : Forest) (root : Label) : Except Absent Forest :=
  if root ∈ searched then
    if root ∈ f.marked then .ok f
    else do
      let (marked, tree) ← descend succs searched (f.marked.insert root) [Frame.enter succs root] []
      return { marked, order := f.order ++ tree }
  else .error ⟨root⟩

def traverse (searched : LabelSet) (roots : List Label) : Except Absent (List Label) := do
  let forest ← roots.foldlM (Forest.grow succs searched) {}
  return forest.order.toList

end FlowAnalysis.DepthFirst
