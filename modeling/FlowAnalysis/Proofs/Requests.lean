import Mathlib.Data.List.MinMax
import FlowAnalysis.Proofs.Forest
import FlowAnalysis.Proofs.Queue
import FlowAnalysis.Proofs.RankedSet

/-! # Worklists answer like sets

A visiting order numbers the listed labels, and a worklist made of it answers
all requests like a set of labels with these numbers for ranks. So does a
worklist that keeps its labels in a priority queue, whatever that queue is like
inside: it is enough that an item is there once, with the number it was pushed
with last, and that one of smallest number is taken first.
-/
namespace FlowAnalysis

namespace Ranking
variable {ρ : Ranking} {order : List Label} {l : Label}

/-- The ranks of a map are those of the ranking. -/
def Numbers (ρ : Ranking) (ranks : LabelMap Nat) : Prop :=
  ∀ l : Label, ranks[l]? = if l ∈ ρ.labels then some (ρ.rank l) else none

theorem Numbers.fetch {ranks : LabelMap Nat} (h : ρ.Numbers ranks) (l : Label) :
    ranks.fetch l = if l ∈ ρ.labels then .ok (ρ.rank l) else .error ⟨l⟩ := by
  rw [LabelMap.fetch, h l]
  by_cases hl : l ∈ ρ.labels
  · rw [if_pos hl, if_pos hl]
  · rw [if_neg hl, if_neg hl]

/-- The places of labels in an order in which each of them stands once. -/
def ofOrder (order : List Label) (h : order.Nodup) : Ranking where
  labels := order.toFinset
  rank l := order.idxOf l
  numbered := by
    rw [List.toFinset_card_of_nodup h]
    refine ⟨fun l hl => ?_, fun l hl m hm he => ?_, fun r hr => ?_⟩
    · exact List.idxOf_lt_length_iff.mpr (List.mem_toFinset.mp hl)
    · exact (List.idxOf_inj (List.mem_toFinset.mp hl)).mp he
    · exact ⟨order[r], List.mem_toFinset.mpr (List.getElem_mem hr), h.idxOf_getElem r hr⟩

theorem numbers_ofOrder (h : order.Nodup) : (ofOrder order h).Numbers (.ofList order.zipIdx) := by
  intro l
  have hmem : l ∈ (Worklist.ofOrder order).ranks ↔ l ∈ order := Worklist.mem_ranks_ofOrder
  have hlabel : l ∈ (ofOrder order h).labels ↔ l ∈ order := List.mem_toFinset
  by_cases hl : l ∈ order
  · obtain ⟨r, hr⟩ := LabelMap.exists_of_mem (hmem.mpr hl)
    obtain ⟨hlt, rfl⟩ := List.getElem?_eq_some_iff.mp (Worklist.getElem?_of_rank_ofOrder hr)
    rw [if_pos (hlabel.mpr hl)]
    exact hr.trans (congrArg some (h.idxOf_getElem r hlt).symm)
  · rw [if_neg (mt hlabel.mp hl)]
    exact Std.ExtTreeMap.getElem?_eq_none (mt hmem.mp hl)

end Ranking

namespace FlowGraph
variable {S : Type} {g : FlowGraph S}

/-- Each listed label stands in a visiting order once. -/
theorem nodup_visitOrder {order : VisitOrder} {ls : List Label} (h : g.visitOrder order = .ok ls) :
    ls.Nodup ∧ ∀ l, l ∈ ls ↔ l ∈ g.ids := by
  cases order with
  | label =>
    cases h
    exact ⟨Std.ExtTreeSet.distinct_toList.imp Std.ReflCmp.ne_of_cmp_ne_eq, ascending_domain.2⟩
  | reversePostOrder =>
    exact ⟨(layout_of_reversePostOrder h).nodup, fun _ => mem_reversePostOrder h⟩

end FlowGraph

namespace Worklist
variable {ρ : Ranking} {w : Worklist} {A : Finset Label}

theorem drainFrom_append (w : Worklist) (taken earlier : List Label) :
    w.drainFrom (taken ++ earlier) =
      (earlier.reverse ++ (w.drainFrom taken).1, (w.drainFrom taken).2) := by
  fun_induction drainFrom w taken with
  | case1 w taken h =>
    rw [drainFrom]
    split
    · rw [List.reverse_append]
    · next h' => simp [h] at h'
  | case2 w taken l rest h ih =>
    rw [drainFrom]
    split
    · next h' => simp [h] at h'
    · next h' =>
      obtain ⟨rfl, rfl⟩ : l = _ ∧ rest = _ := by simpa [h] using h'
      exact ih

def interface : Interface Worklist where
  rank := rank
  contains := contains
  size := size
  isEmpty := isEmpty
  push := push
  extend := extend
  pop? := pop?
  drain := drain
  extend_nil _ := rfl
  extend_cons w l ls := by
    rw [extend]
    cases w.push l <;> rfl
  drain_eq w := by
    rw [drain, drainFrom]
    split
    · next h =>
      rw [h]
      rfl
    · next l rest h =>
      rw [h]
      exact drainFrom_append rest [] [l]

/-- The worklist holds exactly these labels, each at its rank. -/
structure Holds (ρ : Ranking) (w : Worklist) (A : Finset Label) : Prop where
  ranked : w.Ranked
  numbers : ρ.Numbers w.ranks
  mem : ∀ l, l ∈ w ↔ l ∈ A

namespace Holds

theorem inside (h : w.Holds ρ A) : A ⊆ ρ.labels := by
  intro l hl
  obtain ⟨r, hr⟩ := h.ranked.mem_iff.mp ((h.mem l).mpr hl)
  have hrank := h.ranked.place hr
  rw [h.numbers l] at hrank
  by_contra hn
  simp [hn] at hrank

theorem rank (h : w.Holds ρ A) {l : Label} (hl : l ∈ A) : w.ranks[l]? = some (ρ.rank l) :=
  (h.numbers l).trans (if_pos (h.inside hl))

theorem size (h : w.Holds ρ A) : w.size = A.card := by
  have hlabels : w.labels.toFinset = A := by
    ext l
    rw [List.mem_toFinset, h.ranked.mem_labels, h.mem]
  rw [← h.ranked.card_labels, hlabels]

end Holds

theorem implements_interface (ρ : Ranking) : interface.Implements ρ (Holds ρ) where
  shows := by
    intro w A h
    refine ⟨h.numbers.fetch, h.mem, h.size, ?_⟩
    rw [← Finset.card_eq_zero, ← h.size]
    have hempty : w.isEmpty = (w.size == 0) := Std.ExtTreeMap.isEmpty_eq_size_beq_zero
    exact (congrArg (· = true) hempty).to_iff.trans beq_iff_eq
  inside := Holds.inside
  push := by
    intro w A l h hl
    have hpush := push_eq_ok_iff.mpr ⟨_, (h.numbers l).trans (if_pos hl), rfl⟩
    obtain ⟨hv, hranks, hmem⟩ := h.ranked.push hpush
    refine ⟨_, hpush, hv, hranks ▸ h.numbers, fun x => ?_⟩
    rw [hmem, h.mem, Finset.mem_insert]
  push_absent := by
    intro w A l h hl
    have hrank : w.rank l = .error ⟨l⟩ := (h.numbers.fetch l).trans (if_neg hl)
    change w.push l = _
    rw [push, hrank]
    rfl
  pop := by
    intro w A h hA
    have hsize : w.size ≠ 0 := h.size ▸ hA.card_ne_zero
    cases hpop : w.pop? with
    | none => exact absurd (pop?_eq_none_iff.mp hpop) hsize
    | some top =>
      obtain ⟨l, v⟩ := top
      obtain ⟨hv, hranks, hl, hmem⟩ := h.ranked.pop hpop
      have hl := (h.mem l).mp hl
      refine ⟨l, v, hpop, hl, fun m hm => ?_, hv, hranks ▸ h.numbers, fun x => ?_⟩
      · exact h.ranked.least_of_pop hpop ((h.mem m).mpr hm) (h.rank hl) (h.rank hm)
      · rw [hmem, h.mem, Finset.mem_erase]
  pop_empty := fun h => pop?_eq_none_iff.mpr h.size

end Worklist

/-- A queue of labels from which one of greatest priority is taken. What is in it is a map from
labels to priorities: a label that is pushed again has its priority replaced. -/
structure PriorityQueue (P Q : Type) [LE P] where
  empty : Q
  push : Q → Label → P → Q
  pop? : Q → Option ((Label × P) × Q)
  get? : Q → Label → Option P
  size : Q → Nat
  isEmpty : Q → Bool
  entries : Q → LabelMap P
  entries_empty : entries empty = ∅
  entries_push : ∀ (q : Q) (l : Label) (r : P), entries (push q l r) = (entries q).insert l r
  pop_none : ∀ q, pop? q = none ↔ entries q = ∅
  pop_some : ∀ {q v : Q} {l : Label} {r : P}, pop? q = some ((l, r), v) → (entries q)[l]? = some r ∧
    (∀ (m : Label) (s : P), (entries q)[m]? = some s → s ≤ r) ∧ entries v = (entries q).erase l
  get_eq : ∀ (q : Q) (l : Label), get? q l = (entries q)[l]?
  size_eq : ∀ q, size q = (entries q).size
  isEmpty_eq : ∀ q, isEmpty q = (entries q).isEmpty

namespace PriorityQueue
variable {P Q : Type}

theorem size_of_pop [LE P] (pq : PriorityQueue P Q) {q v : Q} {l : Label} {r : P}
    (h : pq.pop? q = some ((l, r), v)) : pq.size v < pq.size q := by
  obtain ⟨hl, _, hv⟩ := pq.pop_some h
  have hmem := LabelMap.mem_of_getElem? hl
  have hpos : (pq.entries q).size ≠ 0 := by
    intro h0
    rw [Std.ExtTreeMap.eq_empty_iff_size_eq_zero.mpr h0] at hmem
    exact Std.ExtTreeMap.not_mem_empty hmem
  rw [pq.size_eq, pq.size_eq, hv, Std.ExtTreeMap.size_erase,
    if_pos (Std.ExtTreeMap.contains_iff_mem.mpr hmem)]
  omega

/-- The map itself as a queue. -/
def ofMap (P : Type) [LinearOrder P] : PriorityQueue P (LabelMap P) where
  empty := ∅
  push := .insert
  pop? q := (q.toList.argmax Prod.snd).map fun e => (e, q.erase e.1)
  get? q l := q[l]?
  size q := q.size
  isEmpty q := q.isEmpty
  entries q := q
  entries_empty := rfl
  entries_push _ _ _ := rfl
  pop_none q := by rw [Option.map_eq_none_iff, List.argmax_eq_none, Std.ExtTreeMap.toList_eq_nil_iff]
  pop_some {q l r v} h := by
    obtain ⟨e, he, heq⟩ := Option.map_eq_some_iff.mp h
    obtain ⟨rfl, rfl⟩ := Prod.mk.inj heq
    refine ⟨Std.ExtTreeMap.mem_toList_iff_getElem?_eq_some.mp (List.argmax_mem he), fun m s hm => ?_, rfl⟩
    exact List.le_of_mem_argmax (Std.ExtTreeMap.mem_toList_iff_getElem?_eq_some.mpr hm) he
  get_eq _ _ := rfl
  size_eq _ := rfl
  isEmpty_eq _ := rfl

end PriorityQueue

/-- A worklist whose labels are kept in a priority queue. A smaller rank is a greater priority. -/
structure QueuedWorklist (Q : Type) where
  ranks : LabelMap Nat
  queue : Q

namespace QueuedWorklist
variable {Q : Type} (pq : PriorityQueue Natᵒᵈ Q)

def ofOrder (order : List Label) : QueuedWorklist Q := { ranks := .ofList order.zipIdx, queue := pq.empty }

def ofGraph {S : Type} (order : VisitOrder) (g : FlowGraph S) : Except Absent (QueuedWorklist Q) :=
  return ofOrder pq (← g.visitOrder order)

def push (w : QueuedWorklist Q) (l : Label) : Except Absent (QueuedWorklist Q) := do
  let r ← w.ranks.fetch l
  return { w with queue := pq.push w.queue l (.toDual r) }

def extend (w : QueuedWorklist Q) : List Label → QueuedWorklist Q × Option Absent
  | [] => (w, none)
  | l :: ls =>
    match w.push pq l with
    | .ok v => v.extend ls
    | .error e => (w, some e)

def pop? (w : QueuedWorklist Q) : Option (Label × QueuedWorklist Q) :=
  (pq.pop? w.queue).map fun (e, q) => (e.1, { w with queue := q })

theorem size_of_pop {w v : QueuedWorklist Q} {l : Label} (h : w.pop? pq = some (l, v)) :
    pq.size v.queue < pq.size w.queue := by
  obtain ⟨⟨e, q⟩, hpop, heq⟩ := Option.map_eq_some_iff.mp h
  obtain ⟨_, rfl⟩ := Prod.mk.inj heq
  exact pq.size_of_pop hpop

def drain (w : QueuedWorklist Q) : List Label × QueuedWorklist Q :=
  match h : w.pop? pq with
  | none => ([], w)
  | some (l, v) =>
    have := size_of_pop pq h
    let (ls, u) := v.drain
    (l :: ls, u)
termination_by pq.size w.queue

def interface : Worklist.Interface (QueuedWorklist Q) where
  rank w := w.ranks.fetch
  contains w l := (pq.get? w.queue l).isSome
  size w := pq.size w.queue
  isEmpty w := pq.isEmpty w.queue
  push := push pq
  extend := extend pq
  pop? := pop? pq
  drain := drain pq
  extend_nil _ := rfl
  extend_cons w l ls := by
    rw [extend]
    cases w.push pq l <;> rfl
  drain_eq w := by
    rw [drain]
    split
    · next h => rw [h]
    · next h => simp only [h]

/-- The worklist holds exactly these labels, each with its rank for priority. -/
structure Holds (ρ : Ranking) (w : QueuedWorklist Q) (A : Finset Label) : Prop where
  numbers : ρ.Numbers w.ranks
  inside : A ⊆ ρ.labels
  entries : ∀ l : Label, (pq.entries w.queue)[l]? = if l ∈ A then some (.toDual (ρ.rank l)) else none

variable {pq} {ρ : Ranking} {w : QueuedWorklist Q} {A : Finset Label} {l : Label}

namespace Holds

theorem mem (h : Holds pq ρ w A) : l ∈ pq.entries w.queue ↔ l ∈ A := by
  rw [Std.ExtTreeMap.mem_iff_isSome_getElem?, h.entries]
  split <;> simp_all

theorem size (h : Holds pq ρ w A) : pq.size w.queue = A.card := by
  rw [pq.size_eq]
  exact LabelMap.size_eq_card fun _ => h.mem

theorem entries_eq_empty (h : Holds pq ρ w A) : pq.entries w.queue = ∅ ↔ A = ∅ := by
  rw [Std.ExtTreeMap.eq_empty_iff_size_eq_zero, ← pq.size_eq, h.size, Finset.card_eq_zero]

end Holds

theorem implements_interface (pq : PriorityQueue Natᵒᵈ Q) (ρ : Ranking) :
    (interface pq).Implements ρ (Holds pq ρ) where
  shows := by
    intro w A h
    refine ⟨h.numbers.fetch, fun l => ?_, h.size, ?_⟩
    · change (pq.get? w.queue l).isSome = true ↔ _
      rw [pq.get_eq, ← Std.ExtTreeMap.mem_iff_isSome_getElem?, h.mem]
    · change pq.isEmpty w.queue = true ↔ _
      rw [pq.isEmpty_eq, Std.ExtTreeMap.isEmpty_iff, h.entries_eq_empty]
  inside := Holds.inside
  push := by
    intro w A l h hl
    have hrank : w.ranks.fetch l = .ok (ρ.rank l) := (h.numbers.fetch l).trans (if_pos hl)
    refine ⟨{ w with queue := pq.push w.queue l (.toDual (ρ.rank l)) }, ?_, h.numbers, ?_, fun x => ?_⟩
    · change w.push pq l = _
      rw [push, hrank]
      rfl
    · exact Finset.insert_subset hl h.inside
    · simp only [pq.entries_push, Std.ExtTreeMap.getElem?_insert, Std.compare_eq_iff_eq, h.entries,
        Finset.mem_insert]
      grind
  push_absent := by
    intro w A l h hl
    have hrank : w.ranks.fetch l = .error ⟨l⟩ := (h.numbers.fetch l).trans (if_neg hl)
    change w.push pq l = _
    rw [push, hrank]
    rfl
  pop := by
    intro w A h hA
    cases hpop : pq.pop? w.queue with
    | none => exact absurd (h.entries_eq_empty.mp ((pq.pop_none _).mp hpop)) hA.ne_empty
    | some top =>
      obtain ⟨⟨l, r⟩, q⟩ := top
      obtain ⟨hl, hmax, hq⟩ := pq.pop_some hpop
      have hmem : l ∈ A := h.mem.mp (LabelMap.mem_of_getElem? hl)
      have hr : r = .toDual (ρ.rank l) := by
        rw [h.entries, if_pos hmem] at hl
        exact (Option.some.inj hl).symm
      refine ⟨l, { w with queue := q }, ?_, hmem, fun m hm => ?_, h.numbers, ?_, fun x => ?_⟩
      · change w.pop? pq = _
        rw [pop?, hpop]
        rfl
      · have hle := hmax m _ ((h.entries m).trans (if_pos hm))
        exact OrderDual.toDual_le_toDual.mp (hr ▸ hle)
      · exact (Finset.erase_subset l A).trans h.inside
      · simp only [hq, Std.ExtTreeMap.getElem?_erase, Std.compare_eq_iff_eq, h.entries, Finset.mem_erase]
        grind
  pop_empty := by
    intro w h
    change w.pop? pq = none
    rw [pop?, (pq.pop_none _).mpr (h.entries_eq_empty.mpr rfl)]
    rfl

end QueuedWorklist

namespace Worklist

/-- Worklists of a graph number the listed labels without gaps, and answer like the set of labels
that are queued; how a priority queue behind them is made does not matter. -/
theorem ofGraph_refines {S : Type} {order : VisitOrder} {g : FlowGraph S} {w : Worklist}
    (hw : ofGraph order g = .ok w) :
    ∃ ρ : Ranking, ρ.labels = g.ids.toFinset ∧ interface.Refines ρ w ∧
      ∀ {Q : Type} (pq : PriorityQueue Natᵒᵈ Q), ∃ v, QueuedWorklist.ofGraph pq order g = .ok v ∧
        (QueuedWorklist.interface pq).Refines ρ v := by
  obtain ⟨ls, hls, rfl⟩ : ∃ ls, g.visitOrder order = .ok ls ∧ w = ofOrder ls := by
    unfold ofGraph at hw
    cases h : g.visitOrder order with
    | error e => simp [h, bind, Except.bind] at hw
    | ok ls =>
      rw [h] at hw
      exact ⟨ls, rfl, (Except.ok.inj hw).symm⟩
  obtain ⟨hnodup, hmem⟩ := FlowGraph.nodup_visitOrder hls
  let ρ := Ranking.ofOrder ls hnodup
  have hnumbers : ρ.Numbers (.ofList ls.zipIdx) := Ranking.numbers_ofOrder hnodup
  refine ⟨ρ, ?_, ?_, fun {Q} pq => ⟨QueuedWorklist.ofOrder pq ls, ?_, ?_⟩⟩
  · ext l
    exact List.mem_toFinset.trans ((hmem l).trans List.mem_toFinset.symm)
  · refine (implements_interface ρ).refines ⟨ranked_ofOrder ls, hnumbers, fun l => ?_⟩
    exact iff_of_false ((ranked_ofOrder ls).not_mem_of_size (size_ofOrder ls) l) (Finset.notMem_empty l)
  · rw [QueuedWorklist.ofGraph, hls]
    rfl
  · refine (QueuedWorklist.implements_interface pq ρ).refines
      ⟨hnumbers, Finset.empty_subset _, fun l => ?_⟩
    change (pq.entries pq.empty)[l]? = _
    rw [pq.entries_empty]
    rfl

/-- The graph lists one of its labels twice. -/
theorem ofGraph_refines_loop :
    ofGraph .reversePostOrder { FlowGraph.loop with ids := [2, 0, 2, 1] } = .ok (ofOrder [0, 1, 2]) ∧
    ∃ ρ : Ranking, ρ.labels = {2, 0, 1} ∧ interface.Refines ρ (ofOrder [0, 1, 2]) ∧
      (QueuedWorklist.interface (.ofMap Natᵒᵈ)).Refines ρ (.ofOrder (.ofMap Natᵒᵈ) [0, 1, 2]) := by
  have horder : { FlowGraph.loop with ids := [2, 0, 2, 1] }.visitOrder .reversePostOrder = .ok [0, 1, 2] := by
    decide +kernel
  have hloop : ofGraph .reversePostOrder { FlowGraph.loop with ids := [2, 0, 2, 1] } =
      .ok (ofOrder [0, 1, 2]) := by
    rw [ofGraph, horder]
    rfl
  obtain ⟨ρ, hlabels, hrefines, hqueued⟩ := ofGraph_refines hloop
  obtain ⟨v, hv, hv'⟩ := hqueued (.ofMap Natᵒᵈ)
  rw [QueuedWorklist.ofGraph, horder] at hv
  cases hv
  exact ⟨hloop, ρ, hlabels.trans (by decide), hrefines, hv'⟩

example : (interface.run (ofOrder [5, 3, 9]) [.push 3, .extend [9, 3, 4, 5], .pop, .push 5, .pop, .push 5]).1 =
    [.queued, .absent ⟨4⟩, .taken (some 3), .queued, .taken (some 5), .queued] := by decide +kernel

end Worklist
end FlowAnalysis
