import FlowAnalysis.FirstEntry
import FlowAnalysis.Traversal.VisitOrder

/-! # Worklists

A worklist is a set of labels from which the label of smallest rank is taken
first. The rank of a label is its place in the visiting order, fixed when the
worklist is made; a label without rank cannot be queued. The queue is a map
from ranks to labels, so it is determined by the labels in it.
-/
namespace FlowAnalysis

structure Worklist where
  ranks : LabelMap Nat
  queue : Std.ExtTreeMap Nat Label := ∅
  deriving DecidableEq

namespace Worklist

/-- The empty worklist in which each label ranks by its place in the order. -/
def ofOrder (order : List Label) : Worklist := { ranks := .ofList order.zipIdx }

def ofGraph {S : Type} (order : VisitOrder) (g : FlowGraph S) : Except Absent Worklist :=
  return ofOrder (← g.visitOrder order)

def rank (w : Worklist) (l : Label) : Except Absent Nat := w.ranks.fetch l

/-- The queued labels in the order in which they will be taken. -/
def labels (w : Worklist) : List Label := w.queue.toList.map Prod.snd

def size (w : Worklist) : Nat := w.queue.size

def isEmpty (w : Worklist) : Bool := w.queue.isEmpty

def contains (w : Worklist) (l : Label) : Bool :=
  match w.ranks[l]? with
  | some r => w.queue.contains r
  | none => false

/-- Queues a label; one that is queued already stays where it is. -/
def push (w : Worklist) (l : Label) : Except Absent Worklist := do
  let r ← w.rank l
  return { w with queue := w.queue.insert r l }

/-- Queues labels one after the other and stops at the first one without rank. -/
def extend (w : Worklist) : List Label → Worklist × Option Absent
  | [] => (w, none)
  | l :: ls =>
    match w.push l with
    | .ok w => w.extend ls
    | .error e => (w, some e)

/-- Takes the label of smallest rank. -/
def pop? (w : Worklist) : Option (Label × Worklist) :=
  match w.queue.entryAtIdx? 0 with
  | none => none
  | some (r, l) => some (l, { w with queue := w.queue.erase r })

theorem size_of_pop? {w rest : Worklist} {l : Label} (h : w.pop? = some (l, rest)) :
    w.size = rest.size + 1 := by
  unfold pop? at h
  split at h
  · simp at h
  · next r _ he =>
    obtain ⟨rfl, rfl⟩ := by simpa using h
    have hr : r ∈ w.queue := Std.ExtTreeMap.mem_iff_isSome_getElem?.mpr
      (Option.isSome_of_eq_some (FirstEntry.getElem?_of_entryAtIdx? he))
    have herase : (w.queue.erase r).size = _ := Std.ExtTreeMap.size_erase
    rw [if_pos (Std.ExtTreeMap.contains_iff_mem.mpr hr)] at herase
    have hpos : w.queue.size ≠ 0 := fun h0 => by
      rw [Std.ExtTreeMap.eq_empty_iff_size_eq_zero.mpr h0] at hr
      simp at hr
    simp only [size]
    omega

def drainFrom (w : Worklist) (taken : List Label) : List Label × Worklist :=
  match _h : w.pop? with
  | none => (taken.reverse, w)
  | some (l, rest) => rest.drainFrom (l :: taken)
termination_by w.size
decreasing_by have := size_of_pop? _h; omega

def drain (w : Worklist) : List Label × Worklist := w.drainFrom []

end Worklist
end FlowAnalysis
